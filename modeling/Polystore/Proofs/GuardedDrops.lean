import Polystore.Partition.Router
import Polystore.Proofs.CatalogStates

/-
  Polystore/Proofs/GuardedDrops.lean
  ==================================
  **Drops strand no partition group.**  A drop is guarded by a look at the
  placements that other stores have of the column, group by group, and then
  removes placements by store and column.  In a linked state this fits together:
  a column that passes belongs to the table, since a table has groups and only
  its own columns are placed for them; and what is removed was of a group that
  keeps another placement, or of one that no table lists.

  The statements are about one call in a reachable state.  A run of calls keeps
  the state reachable and the tables as they are, so coverage carries over to it
  by induction.
-/

namespace Polystore

namespace Catalog

/-- Some store holds the column for the group. -/
def Covered (c : Catalog) (col : ColumnId) (g : PartitionId) : Prop :=
  ∃ p ∈ c.placements, p.column = col ∧ p.group = g

/-- Every column of the table is held for every one of its groups. -/
def FullyCovered (c : Catalog) (t : Table) : Prop :=
  ∀ col ∈ t.columns, ∀ g ∈ t.groups, c.Covered col g

end Catalog

namespace Router

variable {c : Catalog} {t : Table} {s : StoreId}

theorem mem_placementsOf {col : ColumnId} {p : Placement} :
    p ∈ c.placementsOf col ↔ p ∈ c.placements ∧ p.column = col := by
  simp [Catalog.placementsOf]

theorem survivesWithout_iff {col : ColumnId} : survivesWithout c t s col = true ↔
    ∀ g ∈ t.groups, ∃ p ∈ c.placements, p.column = col ∧ p.store ≠ s ∧ p.group = g := by
  simp [survivesWithout, mem_placementsOf, and_assoc]

/-! ### What is left after a drop -/

section

variable {columns : List ColumnId}
  (hsurvive : ∀ col ∈ columns, survivesWithout c t s col = true)
include hsurvive

theorem covered_of_survives {col : ColumnId} (hcol : col ∈ columns) {g : PartitionId}
    (hg : g ∈ t.groups) : (Catalog.withoutColumns s columns c).Covered col g := by
  obtain ⟨p, hp, hpcol, hstore, hpg⟩ := survivesWithout_iff.mp (hsurvive col hcol) g hg
  exact ⟨p, List.mem_filter.mpr ⟨hp, by simp [hstore]⟩, hpcol, hpg⟩

/-- Only columns of the table can be dropped. -/
theorem dropped_subset (hc : c.Linked) (ht : t ∈ c.tables) : columns ⊆ t.columns := by
  intro col hcol
  obtain ⟨g, hg⟩ := List.exists_mem_of_ne_nil _ (hc.grouped t ht)
  obtain ⟨p, hp, rfl, -, hpg⟩ := survivesWithout_iff.mp (hsurvive col hcol) g hg
  exact hc.column_of_placed ht hp (hpg ▸ hg)

/-- A drop takes no coverage of other columns, and none for a group that a table
    lists. -/
theorem covered_of_covered (hc : c.Linked) (ht : t ∈ c.tables) {col : ColumnId} {g : PartitionId}
    (hcovered : c.Covered col g) (hspared : col ∉ columns ∨ ∃ u ∈ c.tables, g ∈ u.groups) :
    (Catalog.withoutColumns s columns c).Covered col g := by
  obtain ⟨p, hp, rfl, rfl⟩ := hcovered
  by_cases hcol : p.column ∈ columns
  · obtain ⟨u, hu, hg⟩ := hspared.resolve_left (not_not_intro hcol)
    -- the group is one of the table, for the column is
    have htu : t = u := hc.table_of_column ht hu (dropped_subset hsurvive hc ht hcol)
      (hc.column_of_placed hu hp hg)
    exact covered_of_survives hsurvive hcol (htu ▸ hg)
  · exact ⟨p, List.mem_filter.mpr ⟨hp, by simp [hcol]⟩, rfl, rfl⟩

end

/-! ### The outcomes of a drop -/

theorem dropColumn_cases (c : Catalog) (id : TableId) (s : StoreId) (col : ColumnId) :
    (dropColumn id s col).Refused c ∨ ∃ t, c.table id = .ok t ∧
      (∀ x ∈ [col], survivesWithout c t s x = true) ∧ (dropColumn id s col).result c = .ok () ∧
      (dropColumn id s col).after c =
        { Catalog.withoutColumns s [col] c with version := c.version + 1 } := by
  cases ht : c.table id with
  | error e => exact .inl (Session.refused_lift_bind ht _ c)
  | ok t =>
    by_cases hsurvive : survivesWithout c t s col = true
    · refine .inr ⟨t, rfl, by simpa using hsurvive, ?_, ?_⟩
      · refine (Session.result_lift_bind ht _ c).trans ?_
        rw [if_pos hsurvive]
        exact Catalog.result_publish rfl
      · refine (Session.after_lift_bind ht _ c).trans ?_
        rw [if_pos hsurvive]
        exact Catalog.after_publish (a := ()) rfl
    · refine .inl (Session.Refused.lift_bind ht _ c ?_)
      rw [if_neg hsurvive]
      cases hcol : c.column col with
      | error e => exact Session.refused_lift_bind rfl _ c
      | ok column => exact .lift_bind rfl _ c (Session.refused_throw _ c)

theorem dropData_cases (c : Catalog) (id : TableId) (s : StoreId) :
    (dropData id s).Refused c ∨ ∃ t, c.table id = .ok t ∧
      (∀ col ∈ t.columns, survivesWithout c t s col = true) ∧ (dropData id s).result c = .ok () ∧
      (dropData id s).after c =
        { Catalog.withoutColumns s t.columns c with version := c.version + 1 } := by
  cases ht : c.table id with
  | error e => exact .inl (Session.refused_lift_bind ht _ c)
  | ok t =>
    cases hfind : t.columns.find? fun col => !survivesWithout c t s col with
    | some col =>
      refine .inl (Session.Refused.lift_bind ht _ c ?_)
      rw [hfind]
      exact Session.refused_throw _ c
    | none =>
      refine .inr ⟨t, rfl, by simpa using hfind, ?_, ?_⟩
      · refine (Session.result_lift_bind ht _ c).trans ?_
        rw [hfind]
        exact (Catalog.deleteData_eq s ht).1
      · refine (Session.after_lift_bind ht _ c).trans ?_
        rw [hfind]
        exact (Catalog.deleteData_eq s ht).2

/-! ### Calls -/

/-- A call that takes placements away, but looks first, or one that adds a
    placement. -/
inductive GuardedCall where
  | dropColumn (id : TableId) (s : StoreId) (col : ColumnId)
  | dropData (id : TableId) (s : StoreId)
  | place (s : StoreId) (col : ColumnId) (g : PartitionId)

namespace GuardedCall

def session : GuardedCall → Session Unit
  | dropColumn id s col => Router.dropColumn id s col
  | dropData id s => Router.dropData id s
  | place s col g => Catalog.addPlacement s col g

/-- The state after some calls, refused or not. -/
def run (calls : List GuardedCall) (c : Catalog) : Catalog :=
  calls.foldl (fun c x => x.session.after c) c

/-- The call is to drop the column from a store. -/
def Drops (c : Catalog) : GuardedCall → ColumnId → Prop
  | dropColumn _ _ col, x => x = col
  | dropData id _, x => ∃ t, c.table id = .ok t ∧ x ∈ t.columns
  | place .., _ => False

/-- What a call does to a state, if it is not refused. -/
structure Guards (c : Catalog) (x : GuardedCall) (c' : Catalog) : Prop where
  reachable : c'.Reachable
  tables : c'.tables = c.tables
  covered : ∀ col g, c.Covered col g → (¬x.Drops c col ∨ ∃ u ∈ c.tables, g ∈ u.groups) →
    c'.Covered col g

theorem outcome (hc : c.Reachable) (x : GuardedCall) :
    x.session.Refused c ∨ x.session.result c = .ok () ∧ x.Guards c (x.session.after c) := by
  cases x with
  | dropColumn id s col =>
    rcases dropColumn_cases c id s col with hrefused | ⟨t, ht, hsurvive, hresult, hafter⟩
    · exact .inl hrefused
    · refine .inr ⟨hresult, ?_⟩
      rw [session, hafter]
      refine ⟨.deleteColumn s col hc, rfl, fun x g hx hspared => ?_⟩
      exact covered_of_covered hsurvive hc.linked (Catalog.table_eq_ok ht).1 hx
        (hspared.imp_left fun hfree hmem => hfree (List.mem_singleton.mp hmem))
  | dropData id s =>
    rcases dropData_cases c id s with hrefused | ⟨t, ht, hsurvive, hresult, hafter⟩
    · exact .inl hrefused
    · refine .inr ⟨hresult, ?_⟩
      rw [session, hafter]
      refine ⟨(Catalog.deleteData_eq s ht).2 ▸ .deleteData s id hc, rfl, fun x g hx hspared => ?_⟩
      exact covered_of_covered hsurvive hc.linked (Catalog.table_eq_ok ht).1 hx
        (hspared.imp_left fun hfree hmem => hfree ⟨t, ht, hmem⟩)
  | place s col g =>
    rcases Catalog.addPlacement_cases c s col g with hrefused | ⟨hresult, hafter⟩
    · exact .inl hrefused
    · refine .inr ⟨hresult, ?_⟩
      rw [session, hafter]
      refine ⟨hafter ▸ .addPlacement s col g hc, rfl, ?_⟩
      rintro x g' ⟨p, hp, hpx⟩ -
      exact ⟨p, Catalog.mem_insertPlacement.mpr (.inr hp), hpx⟩

/-- One call. -/
theorem guards (hc : c.Reachable) (x : GuardedCall) : x.Guards c (x.session.after c) := by
  rcases outcome hc x with ⟨-, hafter⟩ | ⟨-, hguards⟩
  · rw [hafter]
    exact ⟨hc, rfl, fun _ _ h _ => h⟩
  · exact hguards

/-- A run of calls. -/
theorem run_guards (hc : c.Reachable) (calls : List GuardedCall) :
    (run calls c).Reachable ∧ (run calls c).tables = c.tables ∧
      ∀ col g, c.Covered col g → (∃ u ∈ c.tables, g ∈ u.groups) → (run calls c).Covered col g := by
  induction calls generalizing c with
  | nil => exact ⟨hc, rfl, fun _ _ h _ => h⟩
  | cons x rest ih =>
    have hstep := guards hc x
    obtain ⟨hreachable, htables, hcovered⟩ := ih hstep.reachable
    refine ⟨hreachable, htables.trans hstep.tables, fun col g h hlisted => ?_⟩
    exact hcovered col g (hstep.covered col g h (.inr hlisted)) (hstep.tables ▸ hlisted)

end GuardedCall

/-! ### Reading from a covered table -/

theorem exists_choose {g : PartitionId} {col : ColumnId} (h : c.Covered col g) :
    ∃ p, choose c t g col = .ok p := by
  obtain ⟨p, hp, hcol, hg⟩ := h
  have hholder : p ∈ (c.placementsOf col).filter (·.group = g) := by
    simp [mem_placementsOf, hp, hcol, hg]
  unfold choose
  cases hholders : (c.placementsOf col).filter (·.group = g) with
  | nil =>
    rw [hholders] at hholder
    cases hholder
  | cons first rest =>
    cases hfull : (first :: rest).find? fun p => c.holdsColumn p.store t.groups col with
    | none => exact ⟨first, by simp [hfull, require]⟩
    | some q => exact ⟨q, by simp [hfull, require]⟩

theorem exists_relevantPlacements_of_covered {id : TableId} {groups : List PartitionId}
    (ht : c.table id = .ok t)
    (hcovered : ∀ g ∈ groups, g ∈ t.groups ∧ ∀ col ∈ t.columns, c.Covered col g) :
    ∃ chosen, relevantPlacements c id groups = .ok chosen := by
  have hstep (chosen : ByGroup (List Placement)) (g : PartitionId) (hg : g ∈ groups) :
      ∃ chosen', (do
        ensure (t.groups.contains g) (foreignPartition g t)
        let placements ← t.columns.mapM (choose c t g)
        return chosen.modify g [] fun _ => placements) = Except.ok chosen' := by
    obtain ⟨hbelongs, hcolumns⟩ := hcovered g hg
    obtain ⟨placements, hplacements⟩ :=
      exists_mapM_eq_ok fun col hcol => exists_choose (t := t) (hcolumns col hcol)
    exact ⟨_, except_bind_eq_ok.mpr ⟨(), ensure_eq_ok.mpr (List.contains_iff_mem.mpr hbelongs),
      except_bind_eq_ok.mpr ⟨placements, hplacements, rfl⟩⟩⟩
  obtain ⟨chosen, hchosen⟩ := exists_foldlM_eq_ok hstep []
  exact ⟨chosen, except_bind_eq_ok.mpr ⟨t, ht, hchosen⟩⟩

theorem exists_relevantPlacements {id : TableId} {groups : List PartitionId}
    (ht : c.table id = .ok t) (hfull : c.FullyCovered t) (hgroups : groups ⊆ t.groups) :
    ∃ chosen, relevantPlacements c id groups = .ok chosen :=
  exists_relevantPlacements_of_covered ht fun g hg =>
    ⟨hgroups hg, fun col hcol => hfull col hcol g (hgroups hg)⟩

/-- Drops strand no group.  After any calls from a reachable state: a drop that
    succeeds drops columns of its table, and leaves them held for every group that
    the table lists; a refused call changes nothing; no call takes the coverage of
    another column, or for a group that a table lists; and a table that was fully
    covered before the calls still is, so that any of its groups can be read. -/
theorem drops_keep_coverage (hc : c.Reachable) (calls : List GuardedCall) :
    let c' := GuardedCall.run calls c
    (∀ id s col, (dropColumn id s col).result c' = .ok () →
      ∃ t, c'.table id = .ok t ∧ col ∈ t.columns ∧
        ∀ g ∈ t.groups, ((dropColumn id s col).after c').Covered col g) ∧
    (∀ id s, (dropData id s).result c' = .ok () →
      ∃ t, c'.table id = .ok t ∧
        ∀ col ∈ t.columns, ∀ g ∈ t.groups, ((dropData id s).after c').Covered col g) ∧
    (∀ (x : GuardedCall) (e : Error), x.session.result c' = .error e → x.session.after c' = c') ∧
    (∀ (x : GuardedCall) (col : ColumnId) (g : PartitionId), c'.Covered col g →
      (¬x.Drops c' col ∨ ∃ u ∈ c'.tables, g ∈ u.groups) → (x.session.after c').Covered col g) ∧
    ∀ id t, c.table id = .ok t → c.FullyCovered t →
      c'.table id = .ok t ∧ c'.FullyCovered t ∧
        ∀ groups, groups ⊆ t.groups → ∃ chosen, relevantPlacements c' id groups = .ok chosen := by
  intro c'
  obtain ⟨hreachable, htables, hcovered⟩ := GuardedCall.run_guards hc calls
  change c'.Reachable at hreachable
  refine ⟨fun id s col hresult => ?_, fun id s hresult => ?_, fun x e herror => ?_,
    fun x => (GuardedCall.guards hreachable x).covered, fun id t ht hfull => ?_⟩
  · rcases dropColumn_cases c' id s col with ⟨⟨e, he⟩, -⟩ | ⟨t, ht, hsurvive, -, hafter⟩
    · rw [he] at hresult
      cases hresult
    · rw [hafter]
      have hsubset := dropped_subset hsurvive hreachable.linked (Catalog.table_eq_ok ht).1
      exact ⟨t, ht, hsubset (by simp), fun g hg => covered_of_survives hsurvive (by simp) hg⟩
  · rcases dropData_cases c' id s with ⟨⟨e, he⟩, -⟩ | ⟨t, ht, hsurvive, -, hafter⟩
    · rw [he] at hresult
      cases hresult
    · rw [hafter]
      exact ⟨t, ht, fun col hcol g hg => covered_of_survives hsurvive hcol hg⟩
  · rcases GuardedCall.outcome hreachable x with ⟨-, hafter⟩ | ⟨hok, -⟩
    · exact hafter
    · rw [hok] at herror
      cases herror
  · have ht' : c'.table id = .ok t := by
      unfold Catalog.table
      rw [htables]
      exact ht
    have hfull' : c'.FullyCovered t := fun col hcol g hg =>
      hcovered col g (hfull col hcol g hg) ⟨t, (Catalog.table_eq_ok ht).1, hg⟩
    exact ⟨ht', hfull', fun groups hgroups => exists_relevantPlacements ht' hfull' hgroups⟩

/-- The columns of users on a document store, and one of them on a search store. -/
def users : Catalog :=
  GuardedCall.run [.place ⟨1⟩ ⟨4⟩ ⟨6⟩, .place ⟨1⟩ ⟨5⟩ ⟨6⟩, .place ⟨2⟩ ⟨5⟩ ⟨6⟩]
    ((Catalog.createTable ⟨"app", "users", [⟨"id", .bigint, false⟩, ⟨"name", .string, true⟩],
        ["id"], [], none⟩).after
      ((Catalog.addStore "search" .search).after ((Catalog.addStore "docs" .document).after {})))

theorem drops_keep_coverage_users :
    ((dropColumn ⟨3⟩ ⟨1⟩ ⟨5⟩).after users).Covered ⟨5⟩ ⟨6⟩ ∧
      ∃ chosen, relevantPlacements
        (GuardedCall.run [.dropColumn ⟨3⟩ ⟨1⟩ ⟨5⟩, .dropColumn ⟨3⟩ ⟨2⟩ ⟨5⟩, .dropData ⟨3⟩ ⟨1⟩] users)
        ⟨3⟩ [⟨6⟩] = .ok chosen := by
  have hreachable : users.Reachable :=
    (GuardedCall.run_guards (.createTable _ (.addStore _ _ (.addStore _ _ .empty))) _).1
  have htable : ∃ t, users.table ⟨3⟩ = .ok t ∧ t.columns = [⟨4⟩, ⟨5⟩] ∧ t.groups = [⟨6⟩] :=
    ⟨_, rfl, rfl, rfl⟩
  have hplacements : users.placements =
      [⟨⟨6⟩, ⟨1⟩, ⟨4⟩⟩, ⟨⟨6⟩, ⟨1⟩, ⟨5⟩⟩, ⟨⟨6⟩, ⟨2⟩, ⟨5⟩⟩] := rfl
  have hdropped : (dropColumn ⟨3⟩ ⟨1⟩ ⟨5⟩).result users = .ok () := rfl
  generalize users = c at *
  obtain ⟨t, ht, hcolumns, hgroups⟩ := htable
  constructor
  · obtain ⟨t', ht', -, hcovered⟩ := (drops_keep_coverage hreachable []).1 ⟨3⟩ ⟨1⟩ ⟨5⟩ hdropped
    obtain rfl : t = t' := Except.ok.inj (ht.symm.trans ht')
    exact hcovered ⟨6⟩ (by simp [hgroups])
  · have hfull : c.FullyCovered t := by
      simp [Catalog.FullyCovered, Catalog.Covered, hcolumns, hgroups, hplacements]
    obtain ⟨-, -, -, -, hkept⟩ := drops_keep_coverage hreachable
      [.dropColumn ⟨3⟩ ⟨1⟩ ⟨5⟩, .dropColumn ⟨3⟩ ⟨2⟩ ⟨5⟩, .dropData ⟨3⟩ ⟨1⟩]
    exact (hkept ⟨3⟩ t ht hfull).2.2 [⟨6⟩] (by simp [hgroups])

end Router

end Polystore
