import Polystore.Catalog.Change
import Polystore.Proofs.Outcomes

/-
  Polystore/Proofs/CatalogStates.lean
  ===================================
  **The states of a catalog.**  A state is reachable when a sequence of changes,
  successful or not, leads to it from the empty catalog.  In a reachable state
  identifiers are unique among the entries of a kind, tables list their own
  columns and groups, and a placement joins a column and a group of one table
  (`Linked`).  A change either publishes the state it computes or leaves the
  state alone (`publish_cases`), so this has to be checked for each computed
  state only.
-/

namespace Polystore

/-! ### Outcomes of a session -/

namespace Session

variable {α β : Type}

/-- What the session comes to in a state. -/
def result (x : Session α) (c : Catalog) : Except Error α := (x.run.run c).1

/-- The state that the session leaves behind. -/
def after (x : Session α) (c : Catalog) : Catalog := (x.run.run c).2

/-- The session gives no result and changes nothing. -/
def Refused (x : Session α) (c : Catalog) : Prop := (∃ e, x.result c = .error e) ∧ x.after c = c

theorem result_lift_bind {x : Except Error β} {b : β} (hx : x = .ok b) (f : β → Session α)
    (c : Catalog) : (liftM x >>= f : Session α).result c = (f b).result c := by
  rw [hx]
  rfl

theorem result_lift_bind_error {x : Except Error β} {e : Error} (hx : x = .error e)
    (f : β → Session α) (c : Catalog) : (liftM x >>= f : Session α).result c = .error e := by
  rw [hx]
  rfl

theorem after_lift_bind {x : Except Error β} {b : β} (hx : x = .ok b) (f : β → Session α)
    (c : Catalog) : (liftM x >>= f : Session α).after c = (f b).after c := by
  rw [hx]
  rfl

theorem Refused.lift_bind {x : Except Error β} {b : β} (hx : x = .ok b) (f : β → Session α)
    (c : Catalog) (h : (f b).Refused c) : Refused (liftM x >>= f : Session α) c := by
  rw [hx]
  exact h

theorem refused_lift_bind {x : Except Error β} {e : Error} (hx : x = .error e)
    (f : β → Session α) (c : Catalog) : Refused (liftM x >>= f : Session α) c := by
  rw [hx]
  exact ⟨⟨e, rfl⟩, rfl⟩

theorem refused_throw (e : Error) (c : Catalog) : Refused (throw e : Session α) c :=
  ⟨⟨e, rfl⟩, rfl⟩

end Session

namespace Catalog

variable {α : Type} {c : Catalog}

theorem result_publish {change : Catalog → Except Error (α × Catalog)} {a : α} {next : Catalog}
    (h : change c = .ok (a, next)) : (publish change).result c = .ok a :=
  (Session.result_lift_bind h _ c).trans rfl

theorem result_publish_error {change : Catalog → Except Error (α × Catalog)} {e : Error}
    (h : change c = .error e) : (publish change).result c = .error e :=
  Session.result_lift_bind_error h _ c

theorem after_publish {change : Catalog → Except Error (α × Catalog)} {a : α} {next : Catalog}
    (h : change c = .ok (a, next)) :
    (publish change).after c = { next with version := c.version + 1 } :=
  (Session.after_lift_bind h _ c).trans rfl

/-- A change is refused, or the state that it computes is published. -/
theorem publish_cases (change : Catalog → Except Error (α × Catalog)) (c : Catalog) :
    (publish change).Refused c ∨ ∃ a next, change c = .ok (a, next) ∧
      (publish change).result c = .ok a ∧
      (publish change).after c = { next with version := c.version + 1 } := by
  cases h : change c with
  | error e => exact .inl (Session.refused_lift_bind h _ c)
  | ok p => exact .inr ⟨p.1, p.2, rfl, result_publish h, after_publish h⟩

/-- The states to which changes lead. -/
inductive Reachable : Catalog → Prop
  | empty : Reachable {}
  | addStore {c : Catalog} (name : String) (b : Backend) :
    Reachable c → Reachable ((addStore name b).after c)
  | createTable {c : Catalog} (d : TableDef) : Reachable c → Reachable ((createTable d).after c)
  | addGroup {c : Catalog} (id : TableId) (name : String) (qualifiers : List String)
    (unbound : Bool) : Reachable c → Reachable ((addGroup id name qualifiers unbound).after c)
  | install {c : Catalog} (id : TableId) (p : Partitioning) (groups : List PartitionId) :
    Reachable c → Reachable ((install id p groups).after c)
  | addPlacement {c : Catalog} (s : StoreId) (col : ColumnId) (g : PartitionId) :
    Reachable c → Reachable ((addPlacement s col g).after c)
  | setNames {c : Catalog} (s : StoreId) (col : ColumnId) (schema table name : String) :
    Reachable c → Reachable ((setNames s col schema table name).after c)
  | deleteColumn {c : Catalog} (s : StoreId) (col : ColumnId) :
    Reachable c → Reachable ((deleteColumn s col).after c)
  | deleteData {c : Catalog} (s : StoreId) (id : TableId) :
    Reachable c → Reachable ((deleteData s id).after c)
  | setRows {c : Catalog} (id : TableId) (rows : Float) :
    Reachable c → Reachable ((setRows id rows).after c)

/-! ### Lookups -/

theorem found {κ : Type} [DecidableEq κ] {id : α → κ} {k : κ} {l : List α} {x : α} {e : Error}
    (h : require e (l.find? (id · = k)) = .ok x) : x ∈ l ∧ id x = k := by
  have hfind := require_eq_ok.mp h
  have hx := List.find?_some hfind
  exact ⟨List.mem_of_find?_eq_some hfind, of_decide_eq_true hx⟩

theorem table_eq_ok {id : TableId} {t : Table} (h : c.table id = .ok t) :
    t ∈ c.tables ∧ t.id = id := found h

theorem column_eq_ok {id : ColumnId} {x : Column} (h : c.column id = .ok x) :
    x ∈ c.columns ∧ x.id = id := found h

theorem store_eq_ok {id : StoreId} {s : Store} (h : c.store id = .ok s) :
    s ∈ c.stores ∧ s.id = id := found h

theorem group_eq_ok {id : PartitionId} {g : PartitionGroup} (h : c.group id = .ok g) :
    g ∈ c.groups ∧ g.id = id := found h

theorem mem_insertPlacement {p q : Placement} {l : List Placement} :
    q ∈ insertPlacement p l ↔ q = p ∨ q ∈ l := by
  induction l with
  | nil => simp [insertPlacement]
  | cons r rest ih =>
    unfold insertPlacement
    by_cases hpr : p = r
    · simp [hpr]
    · simp only [hpr, if_false]
      split
      · simp
      · rw [List.mem_cons, ih, List.mem_cons, or_left_comm]

theorem mem_insertLocation {l m : Location} {ls : List Location} (h : m ∈ insertLocation l ls) :
    m = l ∨ m ∈ ls := by
  induction ls with
  | nil => exact .inl (List.mem_singleton.mp h)
  | cons first rest ih =>
    unfold insertLocation at h
    split at h
    · exact .inr h
    · split at h
      · exact List.mem_cons.mp h
      · rcases List.mem_cons.mp h with rfl | h
        · exact .inr (by simp)
        · exact (ih h).imp_right (List.mem_cons_of_mem _)

theorem subset_insertLocation (l : Location) (ls : List Location) : ls ⊆ insertLocation l ls := by
  induction ls with
  | nil => simp
  | cons first rest ih =>
    intro m hm
    unfold insertLocation
    split
    · exact hm
    · split
      · exact List.mem_cons_of_mem _ hm
      · rcases List.mem_cons.mp hm with rfl | hm
        · simp
        · exact List.mem_cons_of_mem _ (ih hm)

/-- After the insertion the store has a location for the column. -/
theorem exists_insertLocation (l : Location) (ls : List Location) :
    ∃ m ∈ insertLocation l ls, m.store = l.store ∧ m.column = l.column := by
  induction ls with
  | nil => exact ⟨l, by simp [insertLocation], rfl, rfl⟩
  | cons first rest ih =>
    unfold insertLocation
    split
    case isTrue hsame => exact ⟨first, by simp, hsame.1.symm, hsame.2.symm⟩
    case isFalse =>
      split
      · exact ⟨l, by simp, rfl, rfl⟩
      · obtain ⟨m, hm, hsame⟩ := ih
        exact ⟨m, List.mem_cons_of_mem _ hm, hsame⟩

theorem location?_eq_some {s : StoreId} {col : ColumnId} {l : Location}
    (h : c.location? s col = some l) : l ∈ c.locations ∧ l.store = s ∧ l.column = col :=
  ⟨List.mem_of_find?_eq_some h, by simpa using List.find?_some h⟩

theorem isSome_location? {s : StoreId} {col : ColumnId} :
    (c.location? s col).isSome = true ↔ ∃ l ∈ c.locations, l.store = s ∧ l.column = col := by
  simp [location?]

theorem withPlacement_eq_ok {s : StoreId} {col : ColumnId} {g : PartitionId} {next : Catalog}
    (h : withPlacement s col g c = .ok next) :
    (∃ st ∈ c.stores, st.id = s) ∧
      (∃ x ∈ c.columns, ∃ entry ∈ c.groups, x.id = col ∧ entry.id = g ∧ entry.table = x.table) ∧
      next = { c with
        placements := insertPlacement ⟨g, s, col⟩ c.placements
        locations := insertLocation ⟨s, col, none, none, none⟩ c.locations } := by
  obtain ⟨_, hstore, h⟩ := except_bind_eq_ok.mp h
  obtain ⟨st, hst, -⟩ := except_bind_eq_ok.mp hstore
  obtain ⟨x, hcolumn, h⟩ := except_bind_eq_ok.mp h
  obtain ⟨entry, hgroup, h⟩ := except_bind_eq_ok.mp h
  obtain ⟨_, htable, h⟩ := except_bind_eq_ok.mp h
  obtain ⟨hx, hxid⟩ := column_eq_ok hcolumn
  obtain ⟨hentry, hid⟩ := group_eq_ok hgroup
  exact ⟨⟨st, store_eq_ok hst⟩,
    ⟨x, hx, entry, hentry, hxid, hid, of_decide_eq_true (ensure_eq_ok.mp htable)⟩,
    (Except.ok.inj h).symm⟩

theorem addPlacement_cases (c : Catalog) (s : StoreId) (col : ColumnId) (g : PartitionId) :
    (addPlacement s col g).Refused c ∨ (addPlacement s col g).result c = .ok () ∧
      (addPlacement s col g).after c = { c with
        version := c.version + 1
        placements := insertPlacement ⟨g, s, col⟩ c.placements
        locations := insertLocation ⟨s, col, none, none, none⟩ c.locations } := by
  rcases publish_cases (fun c => do return ((), ← withPlacement s col g c)) c with
    hrefused | ⟨_, next, hnext, hresult, hafter⟩
  · exact .inl hrefused
  · obtain ⟨next', hplaced, hpair⟩ := except_bind_eq_ok.mp hnext
    obtain ⟨-, -, rfl⟩ := withPlacement_eq_ok hplaced
    obtain ⟨-, rfl⟩ := Prod.mk.inj (Except.ok.inj hpair)
    exact .inr ⟨hresult, hafter⟩

theorem deleteData_eq {id : TableId} {t : Table} (s : StoreId) (h : c.table id = .ok t) :
    (deleteData s id).result c = .ok () ∧ (deleteData s id).after c =
      { withoutColumns s t.columns c with version := c.version + 1 } := by
  have hchange : (do return ((), withoutColumns s (← c.table id).columns c) :
      Except Error (Unit × Catalog)) = .ok ((), withoutColumns s t.columns c) := by
    rw [h]
    rfl
  exact ⟨result_publish hchange, after_publish hchange⟩

/-! ### Tables and partitionings -/

/-- The columns that a table gets when it is created. -/
def columnsFor (d : TableDef) (c : Catalog) : List Column :=
  d.columns.mapIdx fun i col =>
    { id := ⟨c.lastId + 1 + 1 + i⟩, table := ⟨c.lastId + 1⟩, name := col.name, type := col.type,
      nullable := col.nullable, position := i }

/-- The entry of a new table, which is not partitioned. -/
def tableFor (d : TableDef) (partitionKey clusteringKey : List ColumnId) (c : Catalog) : Table where
  id := ⟨c.lastId + 1⟩
  space := d.space
  name := d.name
  columns := (columnsFor d c).map (·.id)
  partitionKey
  clusteringKey
  rows := d.rows
  groups := [⟨c.lastId + 1 + (columnsFor d c).length + 1⟩]
  partitioning := none

/-- The state in which the table has been created with its keys resolved. -/
def created (d : TableDef) (partitionKey clusteringKey : List ColumnId) (c : Catalog) : Catalog :=
  let last := c.lastId + 1 + (columnsFor d c).length
  { c with
    lastId := last + 1
    tables := c.tables ++ [tableFor d partitionKey clusteringKey c]
    columns := c.columns ++ columnsFor d c
    groups := c.groups ++ [⟨⟨last + 1⟩, ⟨c.lastId + 1⟩, "default", [], false⟩] }

theorem resolveKey_eq_ok {id : TableId} {columns : List Column} {names : List String}
    {key : List ColumnId} (h : resolveKey id columns names = .ok key) :
    key ⊆ columns.map (·.id) := by
  intro x hx
  obtain ⟨name, -, hname⟩ := exists_of_forall₂_right (mapM_eq_ok.mp h) x hx
  obtain ⟨column, hcolumn, hid⟩ := except_bind_eq_ok.mp hname
  obtain rfl := Except.ok.inj hid
  exact List.mem_map_of_mem (List.mem_of_find?_eq_some (require_eq_ok.mp hcolumn))

/-- No name occurs twice if the search for a repeated one finds none. -/
theorem nodup_of_repeatedName? {seen : List String} {columns : List ColumnDef}
    (h : repeatedName? seen columns = none) :
    (columns.map (·.name)).Nodup ∧ ∀ col ∈ columns, col.name ∉ seen := by
  induction columns generalizing seen with
  | nil => simp
  | cons col rest ih =>
    unfold repeatedName? at h
    split at h
    · cases h
    case isFalse hnew =>
      obtain ⟨hnodup, hfresh⟩ := ih h
      have hcol : col.name ∉ seen := by simpa using hnew
      constructor
      · rw [List.map_cons, List.nodup_cons]
        refine ⟨?_, hnodup⟩
        intro hmem
        obtain ⟨other, hother, hname⟩ := List.mem_map.mp hmem
        exact hfresh other hother (by simp [hname])
      · intro other hother
        rcases List.mem_cons.mp hother with rfl | hother
        · exact hcol
        · exact fun hseen => hfresh other hother (List.mem_cons_of_mem _ hseen)

theorem withTable_eq_ok {d : TableDef} {id : TableId} {next : Catalog}
    (h : withTable d c = .ok (id, next)) :
    (∀ t ∈ c.tables, t.space = d.space → t.name ≠ d.name) ∧ (d.columns.map (·.name)).Nodup ∧
      ∃ partitionKey clusteringKey,
        partitionKey ⊆ (columnsFor d c).map (·.id) ∧ clusteringKey ⊆ (columnsFor d c).map (·.id) ∧
        next = created d partitionKey clusteringKey c := by
  obtain ⟨_, hname, h⟩ := except_bind_eq_ok.mp h
  obtain ⟨_, -, h⟩ := except_bind_eq_ok.mp h
  split at h
  · cases h
  case h_2 hrepeated =>
    obtain ⟨partitionKey, hpartition, h⟩ := except_bind_eq_ok.mp h
    obtain ⟨clusteringKey, hclustering, h⟩ := except_bind_eq_ok.mp h
    obtain ⟨-, rfl⟩ := Prod.mk.inj (Except.ok.inj h)
    refine ⟨?_, ?_, partitionKey, clusteringKey, resolveKey_eq_ok hpartition,
      resolveKey_eq_ok hclustering, rfl⟩
    · intro t ht hspace
      have hfree := List.all_eq_true.mp (ensure_eq_ok.mp hname) t ht
      simpa [hspace] using hfree
    · have hnone : repeatedName? [] d.columns = none := by
        cases hr : repeatedName? [] d.columns with
        | none => rfl
        | some name => exact absurd hr (hrepeated name)
      exact (nodup_of_repeatedName? hnone).1

/-- The state in which the partition function has been installed. -/
def installed (id : TableId) (p : Partitioning) (groups : List PartitionId) (c : Catalog) :
    Catalog :=
  let live := c.groups.filter fun g => g.table ≠ id || groups.contains g.id
  mapTable id (fun t => { t with partitioning := some p, groups })
    { c with
      groups := live
      placements := c.placements.filter fun q => live.any (·.id = q.group) }

theorem withPartitioning_eq_ok {id : TableId} {p : Partitioning} {groups : List PartitionId}
    {next : Catalog} (h : withPartitioning id p groups c = .ok next) :
    groups ≠ [] ∧ (∃ x ∈ c.columns, x.id = p.column ∧ x.table = id) ∧
      (∀ g ∈ groups, ∃ entry ∈ c.groups, entry.id = g ∧ entry.table = id) ∧
      next = installed id p groups c := by
  obtain ⟨_, hne, h⟩ := except_bind_eq_ok.mp h
  obtain ⟨x, hcolumn, h⟩ := except_bind_eq_ok.mp h
  obtain ⟨_, htable, h⟩ := except_bind_eq_ok.mp h
  obtain ⟨_, hchecked, h⟩ := except_bind_eq_ok.mp h
  obtain ⟨_, -, h⟩ := except_bind_eq_ok.mp h
  obtain ⟨hx, hxid⟩ := column_eq_ok hcolumn
  refine ⟨by simpa using ensure_eq_ok.mp hne,
    ⟨x, hx, hxid, of_decide_eq_true (ensure_eq_ok.mp htable)⟩, ?_, (Except.ok.inj h).symm⟩
  have hstep (g : PartitionId) : Ends (fun _ => True)
      (do ensure ((← c.group g).table = id) (foreignGroup g id))
      fun _ => ∃ entry ∈ c.groups, entry.id = g ∧ entry.table = id := by
    refine Ends.of_ok (fun _ => trivial) fun _ hg => ?_
    obtain ⟨entry, hentry, htable⟩ := except_bind_eq_ok.mp hg
    obtain ⟨hmem, hid⟩ := group_eq_ok hentry
    exact ⟨entry, hmem, hid, of_decide_eq_true (ensure_eq_ok.mp htable)⟩
  simp only [← bind_assoc] at hchecked
  exact (Ends.forIn fun g (_ : g ∈ groups) => hstep g).result hchecked

/-! ### Entries with numbers -/

/-- Entries have different numbers, none above the last one given out. -/
structure Numbered {α : Type} (number : α → Nat) (last : Nat) (l : List α) : Prop where
  unique : ∀ x ∈ l, ∀ y ∈ l, number x = number y → x = y
  le_last : ∀ x ∈ l, number x ≤ last

namespace Numbered

variable {number : α → Nat} {last last' : Nat} {l l' : List α}

theorem nil : Numbered number last [] := ⟨by simp, by simp⟩

theorem subset (h : Numbered number last l) (hsub : l' ⊆ l) (hle : last ≤ last') :
    Numbered number last' l' where
  unique x hx y hy := h.unique x (hsub hx) y (hsub hy)
  le_last x hx := Nat.le_trans (h.le_last x (hsub hx)) hle

/-- New entries with new numbers. -/
theorem append (h : Numbered number last l) (h' : Numbered number last' l')
    (hnew : ∀ x ∈ l', last < number x) (hle : last ≤ last') :
    Numbered number last' (l ++ l') where
  unique x hx y hy hxy := by
    rcases List.mem_append.mp hx with hx | hx
    · rcases List.mem_append.mp hy with hy | hy
      · exact h.unique x hx y hy hxy
      · have := h.le_last x hx
        have := hnew y hy
        omega
    · rcases List.mem_append.mp hy with hy | hy
      · have := h.le_last y hy
        have := hnew x hx
        omega
      · exact h'.unique x hx y hy hxy
  le_last x hx := by
    rcases List.mem_append.mp hx with hx | hx
    · exact Nat.le_trans (h.le_last x hx) hle
    · exact h'.le_last x hx

theorem singleton {x : α} (h : number x ≤ last) : Numbered number last [x] :=
  ⟨by simp, by simpa using h⟩

/-- Changes of entries that keep their numbers. -/
theorem map {f : α → α} (h : Numbered number last l) (hf : ∀ x, number (f x) = number x) :
    Numbered number last (l.map f) where
  unique x hx y hy hxy := by
    obtain ⟨a, ha, rfl⟩ := List.mem_map.mp hx
    obtain ⟨b, hb, rfl⟩ := List.mem_map.mp hy
    rw [h.unique a ha b hb (by rw [← hf a, ← hf b, hxy])]
  le_last x hx := by
    obtain ⟨a, ha, rfl⟩ := List.mem_map.mp hx
    exact hf a ▸ h.le_last a ha

end Numbered

/-! ### Linked states -/

/-- The entries refer to each other as they should: a table has groups and lists
    its own columns and groups, a column is listed by its table, and a placement
    is of a column and a group of one table. -/
structure Linked (c : Catalog) : Prop where
  tables : Numbered (·.id.n) c.lastId c.tables
  columns : Numbered (·.id.n) c.lastId c.columns
  groups : Numbered (·.id.n) c.lastId c.groups
  grouped : ∀ t ∈ c.tables, t.groups ≠ []
  ownGroups : ∀ t ∈ c.tables, ∀ g ∈ t.groups, ∃ entry ∈ c.groups, entry.id = g ∧ entry.table = t.id
  ownColumns : ∀ t ∈ c.tables, ∀ x ∈ t.columns, ∃ entry ∈ c.columns, entry.id = x ∧ entry.table = t.id
  listed : ∀ x ∈ c.columns, ∃ t ∈ c.tables, t.id = x.table ∧ x.id ∈ t.columns
  placed : ∀ p ∈ c.placements, ∃ x ∈ c.columns, ∃ g ∈ c.groups,
    x.id = p.column ∧ g.id = p.group ∧ x.table = g.table

namespace Linked

theorem column_ext (h : c.Linked) {x y : Column} (hx : x ∈ c.columns) (hy : y ∈ c.columns)
    (hid : x.id = y.id) : x = y :=
  h.columns.unique x hx y hy (congrArg ColumnId.n hid)

theorem group_ext (h : c.Linked) {g g' : PartitionGroup} (hg : g ∈ c.groups) (hg' : g' ∈ c.groups)
    (hid : g.id = g'.id) : g = g' :=
  h.groups.unique g hg g' hg' (congrArg PartitionId.n hid)

theorem table_ext (h : c.Linked) {t u : Table} (ht : t ∈ c.tables) (hu : u ∈ c.tables)
    (hid : t.id = u.id) : t = u :=
  h.tables.unique t ht u hu (congrArg TableId.n hid)

/-- No two tables have a column in common. -/
theorem table_of_column (h : c.Linked) {t u : Table} (ht : t ∈ c.tables) (hu : u ∈ c.tables)
    {x : ColumnId} (hx : x ∈ t.columns) (hx' : x ∈ u.columns) : t = u := by
  obtain ⟨a, ha, hax, hat⟩ := h.ownColumns t ht x hx
  obtain ⟨b, hb, hbx, hbu⟩ := h.ownColumns u hu x hx'
  apply h.table_ext ht hu
  rw [← hat, ← hbu, h.column_ext ha hb (hax.trans hbx.symm)]

/-- What is placed for a group of a table is a column of the table. -/
theorem column_of_placed (h : c.Linked) {t : Table} (ht : t ∈ c.tables) {p : Placement}
    (hp : p ∈ c.placements) (hg : p.group ∈ t.groups) : p.column ∈ t.columns := by
  obtain ⟨x, hx, g, hgc, hxp, hgp, htable⟩ := h.placed p hp
  obtain ⟨g', hgc', hgp', hgt⟩ := h.ownGroups t ht p.group hg
  obtain ⟨u, hu, hux, hlisted⟩ := h.listed x hx
  have hgg : g = g' := h.group_ext hgc hgc' (hgp.trans hgp'.symm)
  have htu : u = t := h.table_ext hu ht (by rw [hux, htable, hgg, hgt])
  rw [← hxp, ← htu]
  exact hlisted

/-! ### Changes that keep a state linked -/

theorem empty : Linked {} where
  tables := .nil
  columns := .nil
  groups := .nil
  grouped := by simp
  ownGroups := by simp
  ownColumns := by simp
  listed := by simp
  placed := by simp

/-- Stores, locations and versions do not matter, and placements may go. -/
theorem unplaced {c' : Catalog} (h : c.Linked) (htables : c'.tables = c.tables)
    (hcolumns : c'.columns = c.columns) (hgroups : c'.groups = c.groups)
    (hplacements : c'.placements ⊆ c.placements) (hlast : c.lastId ≤ c'.lastId) : c'.Linked where
  tables := htables ▸ h.tables.subset (List.Subset.refl _) hlast
  columns := hcolumns ▸ h.columns.subset (List.Subset.refl _) hlast
  groups := hgroups ▸ h.groups.subset (List.Subset.refl _) hlast
  grouped := htables ▸ h.grouped
  ownGroups := by
    rw [htables, hgroups]
    exact h.ownGroups
  ownColumns := by
    rw [htables, hcolumns]
    exact h.ownColumns
  listed := by
    rw [htables, hcolumns]
    exact h.listed
  placed := by
    rw [hcolumns, hgroups]
    exact fun p hp => h.placed p (hplacements hp)

theorem placement (h : c.Linked) {s : StoreId} {x : Column} {g : PartitionGroup}
    (hx : x ∈ c.columns) (hg : g ∈ c.groups) (htable : g.table = x.table) :
    Linked { c with placements := insertPlacement ⟨g.id, s, x.id⟩ c.placements } :=
  { h with
    placed := by
      intro p hp
      rcases mem_insertPlacement.mp hp with rfl | hp
      · exact ⟨x, hx, g, hg, rfl, rfl, htable.symm⟩
      · exact h.placed p hp }

/-- A change of a table's entry that keeps its columns and lists groups of its own. -/
theorem mapTable (h : c.Linked) {id : TableId} {f : Table → Table} (hid : ∀ t, (f t).id = t.id)
    (hcolumns : ∀ t, (f t).columns = t.columns)
    (hgroups : ∀ t ∈ c.tables, t.id = id → (f t).groups ≠ [] ∧
      ∀ g ∈ (f t).groups, ∃ entry ∈ c.groups, entry.id = g ∧ entry.table = id) :
    (Catalog.mapTable id f c).Linked := by
  let f' (t : Table) : Table := if t.id = id then f t else t
  have hid' (t : Table) : (f' t).id = t.id := by
    by_cases ht : t.id = id <;> simp [f', ht, hid]
  have hcolumns' (t : Table) : (f' t).columns = t.columns := by
    by_cases ht : t.id = id <;> simp [f', ht, hcolumns]
  have hgroups' : ∀ t ∈ c.tables, (f' t).groups ≠ [] ∧
      ∀ g ∈ (f' t).groups, ∃ entry ∈ c.groups, entry.id = g ∧ entry.table = t.id := by
    intro t ht
    by_cases hti : t.id = id
    · simp only [f', hti, if_true]
      exact hgroups t ht hti
    · simp only [f', hti, if_false]
      exact ⟨h.grouped t ht, h.ownGroups t ht⟩
  refine { h with tables := ?_, grouped := ?_, ownGroups := ?_, ownColumns := ?_, listed := ?_ }
  · exact h.tables.map fun t => congrArg TableId.n (hid' t)
  · intro t ht
    obtain ⟨u, hu, rfl⟩ := List.mem_map.mp ht
    exact (hgroups' u hu).1
  · intro t ht
    obtain ⟨u, hu, rfl⟩ := List.mem_map.mp ht
    exact (hid' u).symm ▸ (hgroups' u hu).2
  · intro t ht x hx
    obtain ⟨u, hu, rfl⟩ := List.mem_map.mp ht
    exact (hid' u).symm ▸ h.ownColumns u hu x (hcolumns' u ▸ hx)
  · intro x hx
    obtain ⟨u, hu, hux, hlisted⟩ := h.listed x hx
    exact ⟨f' u, List.mem_map_of_mem hu, (hid' u).trans hux, (hcolumns' u).symm ▸ hlisted⟩

/-- Groups that no table lists may go, with their placements. -/
theorem retain (h : c.Linked) {keep : PartitionGroup → Bool}
    (hkeep : ∀ t ∈ c.tables, ∀ g ∈ c.groups, g.id ∈ t.groups → keep g = true) :
    Linked { c with
      groups := c.groups.filter keep
      placements := c.placements.filter fun q => (c.groups.filter keep).any (·.id = q.group) } :=
  { h with
    groups := h.groups.subset (List.filter_subset_self _) (Nat.le_refl _)
    ownGroups := by
      intro t ht g hg
      obtain ⟨entry, hentry, rfl, htable⟩ := h.ownGroups t ht g hg
      exact ⟨entry, List.mem_filter.mpr ⟨hentry, hkeep t ht entry hentry hg⟩, rfl, htable⟩
    placed := by
      intro p hp
      obtain ⟨hp, hlive⟩ := List.mem_filter.mp hp
      obtain ⟨g', hg', hid⟩ := List.any_eq_true.mp hlive
      obtain ⟨x, hx, g, hg, hxp, hgp, htable⟩ := h.placed p hp
      have hgg : g = g' :=
        h.group_ext hg (List.mem_filter.mp hg').1 (hgp.trans (of_decide_eq_true hid).symm)
      exact ⟨x, hx, g, hgg ▸ hg', hxp, hgp, htable⟩ }

theorem withGroup (h : c.Linked) (id : TableId) (name : String) (qualifiers : List String)
    (unbound : Bool) : (withGroup id name qualifiers unbound c).2.Linked where
  tables := h.tables.subset (List.Subset.refl _) (Nat.le_succ _)
  columns := h.columns.subset (List.Subset.refl _) (Nat.le_succ _)
  groups := h.groups.append (.singleton (Nat.le_refl _)) (by simp) (Nat.le_succ _)
  grouped := h.grouped
  ownGroups t ht g hg := by
    obtain ⟨entry, hentry, hid⟩ := h.ownGroups t ht g hg
    exact ⟨entry, List.mem_append_left _ hentry, hid⟩
  ownColumns := h.ownColumns
  listed := h.listed
  placed p hp := by
    obtain ⟨x, hx, g, hg, hp⟩ := h.placed p hp
    exact ⟨x, hx, g, List.mem_append_left _ hg, hp⟩

/-- A new table with new columns and a group. -/
theorem newTable (h : c.Linked) {t : Table} {columns : List Column} {g : PartitionGroup}
    {last : Nat} (hid : c.lastId < t.id.n) (hcolumns : Numbered (·.id.n) last columns)
    (hnew : ∀ x ∈ columns, t.id.n < x.id.n ∧ x.table = t.id) (hle : t.id.n ≤ last)
    (hlisted : t.columns = columns.map (·.id)) (hg : g.id.n = last + 1) (htable : g.table = t.id)
    (hgroups : t.groups = [g.id]) :
    Linked { c with
      lastId := last + 1
      tables := c.tables ++ [t]
      columns := c.columns ++ columns
      groups := c.groups ++ [g] } where
  tables :=
    h.tables.append (.singleton (Nat.le_succ_of_le hle)) (by simpa using hid)
      (show c.lastId ≤ last + 1 by omega)
  columns := by
    refine h.columns.append (hcolumns.subset (List.Subset.refl _) (Nat.le_succ _)) ?_
      (show c.lastId ≤ last + 1 by omega)
    intro x hx
    exact Nat.lt_trans hid (hnew x hx).1
  groups := by
    refine h.groups.append (.singleton (Nat.le_of_eq hg)) ?_ (show c.lastId ≤ last + 1 by omega)
    intro x hx
    obtain rfl := List.mem_singleton.mp hx
    omega
  grouped u hu := by
    rcases List.mem_append.mp hu with hu | hu
    · exact h.grouped u hu
    · obtain rfl := List.mem_singleton.mp hu
      simp [hgroups]
  ownGroups u hu x hx := by
    rcases List.mem_append.mp hu with hu | hu
    · obtain ⟨entry, hentry, he⟩ := h.ownGroups u hu x hx
      exact ⟨entry, List.mem_append_left _ hentry, he⟩
    · obtain rfl := List.mem_singleton.mp hu
      obtain rfl : x = g.id := by simpa [hgroups] using hx
      exact ⟨g, by simp, rfl, htable⟩
  ownColumns u hu x hx := by
    rcases List.mem_append.mp hu with hu | hu
    · obtain ⟨entry, hentry, he⟩ := h.ownColumns u hu x hx
      exact ⟨entry, List.mem_append_left _ hentry, he⟩
    · obtain rfl := List.mem_singleton.mp hu
      obtain ⟨entry, hentry, rfl⟩ := List.mem_map.mp (hlisted ▸ hx)
      exact ⟨entry, List.mem_append_right _ hentry, rfl, (hnew entry hentry).2⟩
  listed x hx := by
    rcases List.mem_append.mp hx with hx | hx
    · obtain ⟨u, hu, he⟩ := h.listed x hx
      exact ⟨u, List.mem_append_left _ hu, he⟩
    · exact ⟨t, by simp, (hnew x hx).2.symm, hlisted ▸ List.mem_map_of_mem hx⟩
  placed p hp := by
    obtain ⟨x, hx, g', hg', he⟩ := h.placed p hp
    exact ⟨x, List.mem_append_left _ hx, g', List.mem_append_left _ hg', he⟩

theorem withTable (h : c.Linked) {d : TableDef} {id : TableId} {next : Catalog}
    (hd : withTable d c = .ok (id, next)) : next.Linked := by
  obtain ⟨-, -, _, _, -, -, rfl⟩ := withTable_eq_ok hd
  refine h.newTable (Nat.lt_succ_self _) ?_ ?_ (Nat.le_add_right _ _) rfl rfl rfl rfl
  · constructor
    · intro x hx y hy hxy
      obtain ⟨i, hi, rfl⟩ := List.mem_mapIdx.mp hx
      obtain ⟨j, hj, rfl⟩ := List.mem_mapIdx.mp hy
      obtain rfl : i = j := by simpa using hxy
      rfl
    · intro x hx
      obtain ⟨i, hi, rfl⟩ := List.mem_mapIdx.mp hx
      rw [columnsFor, List.length_mapIdx]
      change c.lastId + 1 + 1 + i ≤ c.lastId + 1 + d.columns.length
      omega
  · intro x hx
    obtain ⟨i, hi, rfl⟩ := List.mem_mapIdx.mp hx
    refine ⟨?_, rfl⟩
    change c.lastId + 1 < c.lastId + 1 + 1 + i
    omega

theorem withPartitioning (h : c.Linked) {id : TableId} {p : Partitioning}
    {groups : List PartitionId} {next : Catalog}
    (hnext : withPartitioning id p groups c = .ok next) : next.Linked := by
  obtain ⟨hne, -, hgroups, rfl⟩ := withPartitioning_eq_ok hnext
  have hmapped : (Catalog.mapTable id (fun t => { t with partitioning := some p, groups }) c).Linked :=
    h.mapTable (fun _ => rfl) (fun _ => rfl) fun _ _ _ => ⟨hne, hgroups⟩
  -- the groups that go were of this table, and it lists them no longer
  have hkeep : ∀ t ∈ (Catalog.mapTable id (fun t => { t with partitioning := some p, groups }) c).tables,
      ∀ g ∈ c.groups, g.id ∈ t.groups → (g.table ≠ id || groups.contains g.id) = true := by
    intro t ht g hg hlisted
    obtain ⟨u, hu, rfl⟩ := List.mem_map.mp ht
    by_cases hid : u.id = id
    · simp only [hid, if_true] at hlisted
      simp [hlisted]
    · simp only [hid, if_false] at hlisted
      obtain ⟨entry, hentry, hentryId, htable⟩ := h.ownGroups u hu g.id hlisted
      rw [← h.group_ext hentry hg hentryId, htable]
      simp [hid]
  exact hmapped.retain hkeep

/-- What a change publishes is linked if the state that it computes is. -/
theorem publish (h : c.Linked) {change : Catalog → Except Error (α × Catalog)}
    (hchange : ∀ a next, change c = .ok (a, next) → next.Linked) :
    ((Catalog.publish change).after c).Linked := by
  rcases publish_cases change c with ⟨-, hafter⟩ | ⟨a, next, hnext, -, hafter⟩
  · rw [hafter]
    exact h
  · rw [hafter]
    exact (hchange a next hnext).unplaced rfl rfl rfl (List.Subset.refl _) (Nat.le_refl _)

end Linked

theorem Reachable.linked (h : c.Reachable) : c.Linked := by
  induction h with
  | empty => exact .empty
  | addStore name b _ ih =>
    refine ih.publish fun a next hnext => ?_
    obtain ⟨_, -, hnext⟩ := except_bind_eq_ok.mp hnext
    obtain ⟨-, rfl⟩ := Prod.mk.inj (Except.ok.inj hnext)
    exact ih.unplaced rfl rfl rfl (List.Subset.refl _) (Nat.le_succ _)
  | createTable d _ ih => exact ih.publish fun _ _ hnext => ih.withTable hnext
  | addGroup id name qualifiers unbound _ ih =>
    refine ih.publish fun a next hnext => ?_
    obtain ⟨_, -, hnext⟩ := except_bind_eq_ok.mp hnext
    obtain rfl : _ = next := congrArg Prod.snd (Except.ok.inj hnext)
    exact ih.withGroup id name qualifiers unbound
  | install id p groups _ ih =>
    refine ih.publish fun a next hchange => ?_
    obtain ⟨_, hnext, hpair⟩ := except_bind_eq_ok.mp hchange
    obtain ⟨-, rfl⟩ := Prod.mk.inj (Except.ok.inj hpair)
    exact ih.withPartitioning hnext
  | addPlacement s col g _ ih =>
    refine ih.publish fun a next hchange => ?_
    obtain ⟨_, hnext, hpair⟩ := except_bind_eq_ok.mp hchange
    obtain ⟨-, rfl⟩ := Prod.mk.inj (Except.ok.inj hpair)
    obtain ⟨-, ⟨x, hx, entry, hentry, rfl, rfl, htable⟩, rfl⟩ := withPlacement_eq_ok hnext
    exact (ih.placement hx hentry htable).unplaced rfl rfl rfl (List.Subset.refl _) (Nat.le_refl _)
  | setNames s col schema table name _ ih =>
    refine ih.publish fun a next hchange => ?_
    obtain ⟨_, hnext, hpair⟩ := except_bind_eq_ok.mp hchange
    obtain ⟨-, rfl⟩ := Prod.mk.inj (Except.ok.inj hpair)
    obtain ⟨_, -, hnext⟩ := except_bind_eq_ok.mp hnext
    obtain rfl := Except.ok.inj hnext
    exact ih.unplaced rfl rfl rfl (List.Subset.refl _) (Nat.le_refl _)
  | deleteColumn s col _ ih =>
    refine ih.publish fun a next hnext => ?_
    obtain ⟨-, rfl⟩ := Prod.mk.inj (Except.ok.inj hnext)
    exact ih.unplaced rfl rfl rfl (List.filter_subset_self _) (Nat.le_refl _)
  | deleteData s id _ ih =>
    refine ih.publish fun a next hnext => ?_
    obtain ⟨t, -, hpair⟩ := except_bind_eq_ok.mp hnext
    obtain ⟨-, rfl⟩ := Prod.mk.inj (Except.ok.inj hpair)
    exact ih.unplaced rfl rfl rfl (List.filter_subset_self _) (Nat.le_refl _)
  | setRows id rows _ ih =>
    refine ih.publish fun a next hnext => ?_
    obtain ⟨_, -, hnext⟩ := except_bind_eq_ok.mp hnext
    obtain ⟨_, -, hnext⟩ := except_bind_eq_ok.mp hnext
    obtain ⟨-, rfl⟩ := Prod.mk.inj (Except.ok.inj hnext)
    exact ih.mapTable (fun _ => rfl) (fun _ => rfl) fun t ht hid =>
      ⟨ih.grouped t ht, hid ▸ ih.ownGroups t ht⟩

end Catalog

end Polystore
