import Polystore.Proofs.CatalogIntegrity

/-
  Polystore/Proofs/PhysicalNames.lean
  ===================================
  **How long physical names live.**  A store keeps names for a column beside its
  placements of the column, and the two lists are changed by different calls.
  Deleting a column or a table takes its names away with its placements.
  Installing a partition function takes away the placements of the groups that it
  drops, and no names: if one of those was the last placement of a column on a
  store, the names outlive it and come back with the next placement.  Nothing else
  does that, so names live as long as placements along exactly those runs in which
  no installation strands a column (`Spared`).
-/

namespace Polystore

namespace Catalog

variable {c c' : Catalog} {s : StoreId} {col : ColumnId}

/-- The store holds the column for some group. -/
def Holds (c : Catalog) (s : StoreId) (col : ColumnId) : Prop :=
  ∃ p ∈ c.placements, p.store = s ∧ p.column = col

theorem Holds.mono (h : c.Holds s col) (hsub : c.placements ⊆ c'.placements) : c'.Holds s col := by
  obtain ⟨p, hp, hplace⟩ := h
  exact ⟨p, hsub hp, hplace⟩

theorem Intact.located (h : c.Intact) (hholds : c.Holds s col) :
    (c.location? s col).isSome = true := by
  obtain ⟨p, hp, rfl, rfl⟩ := hholds
  exact (h.placements p hp).located

/-- Names are known only of columns that the store holds.  Of any other column they
    cannot be set, and its first placement comes without names. -/
structure NamesLive (c : Catalog) : Prop where
  held : ∀ s col, (c.location? s col).isSome = true → c.Holds s col
  refused : ∀ s col schema table name, ¬c.Holds s col →
    (setNames s col schema table name).result c = .error (notPlaced s col)
  blank : ∀ s col g, ¬c.Holds s col → (addPlacement s col g).result c = .ok () →
    ((addPlacement s col g).after c).location? s col = some ⟨s, col, none, none, none⟩

/-- The lists in step with each other are all that matters. -/
theorem namesLive_iff : c.NamesLive ↔ ∀ l ∈ c.locations, c.Holds l.store l.column := by
  constructor
  · intro h l hl
    exact h.held l.store l.column (isSome_location?.mpr ⟨l, hl, rfl, rfl⟩)
  · intro h
    have held (s : StoreId) (col : ColumnId) (hsome : (c.location? s col).isSome = true) :
        c.Holds s col := by
      obtain ⟨l, hl, rfl, rfl⟩ := isSome_location?.mp hsome
      exact h l hl
    refine ⟨held, ?_, ?_⟩
    · intro s col schema table name hfree
      have hnone : c.location? s col = none :=
        Option.not_isSome_iff_eq_none.mp fun hsome => hfree (held s col hsome)
      apply result_publish_error
      simp only [withNames, hnone]
      rfl
    · intro s col g hfree hok
      rcases addPlacement_cases c s col g with ⟨⟨e, he⟩, -⟩ | ⟨-, hafter⟩
      · rw [he] at hok
        cases hok
      · have hsome : (((addPlacement s col g).after c).location? s col).isSome = true := by
          rw [hafter]
          exact isSome_location?.mpr (exists_insertLocation ⟨s, col, none, none, none⟩ c.locations)
        obtain ⟨l, hl⟩ := Option.isSome_iff_exists.mp hsome
        obtain ⟨hmem, hstore, hcolumn⟩ := location?_eq_some hl
        rw [hafter] at hmem
        rw [hl]
        rcases mem_insertLocation hmem with rfl | hold
        · rfl
        · rw [← hstore, ← hcolumn] at hfree
          exact absurd (h l hold) hfree

end Catalog

namespace CatalogCall

open Catalog

variable {c c' : Catalog} {x : CatalogCall}

/-- The call is to install a partition function, and takes the last placement of a
    column on a store. -/
def Strands (x : CatalogCall) (c : Catalog) : Prop :=
  (∃ id p groups, x = install id p groups) ∧ ∃ s col, c.Holds s col ∧ ¬(x.after c).Holds s col

/-- No call of the run strands a column. -/
def Spared (calls : List CatalogCall) (c : Catalog) : Prop :=
  Throughout (fun x c => ¬x.Strands c) calls c

/-- Without a column of the removed ones, a store holds what it held. -/
theorem holds_withoutColumns {s s' : StoreId} {columns : List ColumnId} {col : ColumnId}
    (h : c.Holds s col) (hspared : (!(s = s' && columns.contains col)) = true) :
    (withoutColumns s' columns c).Holds s col := by
  obtain ⟨p, hp, rfl, rfl⟩ := h
  exact ⟨p, List.mem_filter.mpr ⟨hp, hspared⟩, rfl, rfl⟩

theorem Writes.namesLive (hwrites : Writes c x c') (h : c.NamesLive)
    (hspared : ∀ id p groups, x = .install id p groups →
      ∀ s col, c.Holds s col → c'.Holds s col) : c'.NamesLive := by
  have hheld := namesLive_iff.mp h
  rw [namesLive_iff]
  intro l hl
  cases hwrites with
  | addStore => exact hheld l hl
  | createTable => exact hheld l hl
  | addGroup => exact hheld l hl
  | install => exact hspared _ _ _ rfl _ _ (hheld l hl)
  | addPlacement =>
    rcases mem_insertLocation hl with rfl | hold
    · exact ⟨_, mem_insertPlacement.mpr (.inl rfl), rfl, rfl⟩
    · exact (hheld l hold).mono fun p hp => mem_insertPlacement.mpr (.inr hp)
  | @setNames s col schema table name =>
    obtain ⟨m, hm, rfl⟩ := List.mem_map.mp hl
    by_cases hkey : m.store = s ∧ m.column = col
    · rw [if_pos hkey, ← hkey.1, ← hkey.2]
      exact hheld m hm
    · rw [if_neg hkey]
      exact hheld m hm
  | deleteColumn =>
    obtain ⟨hold, hkept⟩ := List.mem_filter.mp hl
    exact holds_withoutColumns (hheld l hold) hkept
  | deleteData =>
    obtain ⟨hold, hkept⟩ := List.mem_filter.mp hl
    exact holds_withoutColumns (hheld l hold) hkept
  | setRows => exact hheld l hl

/-- An installation leaves all names as they are. -/
theorem locations_install (c : Catalog) (id : TableId) (p : Partitioning)
    (groups : List PartitionId) : ((install id p groups).after c).locations = c.locations := by
  rcases after_cases (install id p groups) c with hsame | hwrites
  · rw [hsame]
  · generalize (install id p groups).after c = c' at hwrites
    cases hwrites
    rfl

/-- One call, from a state in which names live as long as placements. -/
theorem namesLive_after_iff (hc : c.Reachable) (h : c.NamesLive) :
    (x.after c).NamesLive ↔ ¬x.Strands c := by
  constructor
  · rintro hlive ⟨⟨id, p, groups, rfl⟩, s, col, hholds, hlost⟩
    apply hlost
    apply hlive.held
    rw [location?, locations_install]
    exact hc.intact.located hholds
  · intro hspared
    rcases after_cases x c with hsame | hwrites
    · rw [hsame]
      exact h
    · refine hwrites.namesLive h ?_
      intro id p groups hinstall s col hholds
      by_contra hlost
      exact hspared ⟨⟨id, p, groups, hinstall⟩, s, col, hholds, hlost⟩

theorem namesLive_take_iff_spared (calls : List CatalogCall) (hc : c.Reachable)
    (h : c.NamesLive) : (∀ n, (run (calls.take n) c).NamesLive) ↔ Spared calls c := by
  induction calls generalizing c with
  | nil =>
    constructor
    · intro _
      trivial
    · intro _ n
      rw [List.take_nil]
      exact h
  | cons x rest ih =>
    have hnext := reachable_after hc x
    constructor
    · intro hlive
      have hfirst : (x.after c).NamesLive := hlive 1
      exact ⟨(namesLive_after_iff hc h).mp hfirst,
        (ih hnext hfirst).mp fun n => hlive (n + 1)⟩
    · rintro ⟨hspared, hrest⟩ n
      have hfirst : (x.after c).NamesLive := (namesLive_after_iff hc h).mpr hspared
      cases n with
      | zero => exact h
      | succ n => exact (ih hnext hfirst).mpr hrest n

/-- Names live as long as placements in every state of a run exactly when no
    installation of the run strands a column. -/
theorem names_live_iff_spared (calls : List CatalogCall) :
    (∀ n, (run (calls.take n) {}).NamesLive) ↔ Spared calls {} :=
  namesLive_take_iff_spared calls .empty (namesLive_iff.mpr (by simp))

/-- The only column of a table is placed on a store and gets names there; then the
    table is partitioned anew. -/
theorem names_outlive_placement :
    let c := run
      [.addStore "docs" .document,
        .createTable ⟨"app", "events", [⟨"kind", .string, false⟩], [], [], none⟩,
        .addPlacement ⟨1⟩ ⟨3⟩ ⟨4⟩, .setNames ⟨1⟩ ⟨3⟩ "db" "old" "k",
        .addGroup ⟨2⟩ "p0" [] false, .install ⟨2⟩ ⟨.hash, ⟨3⟩⟩ [⟨5⟩]] {}
    ¬c.Holds ⟨1⟩ ⟨3⟩ ∧
      c.location? ⟨1⟩ ⟨3⟩ = some ⟨⟨1⟩, ⟨3⟩, some "db", some "old", some "k"⟩ ∧
      (Catalog.setNames ⟨1⟩ ⟨3⟩ "db" "new" "k").result c = .ok () ∧
      ((Catalog.addPlacement ⟨1⟩ ⟨3⟩ ⟨5⟩).after c).location? ⟨1⟩ ⟨3⟩ =
        some ⟨⟨1⟩, ⟨3⟩, some "db", some "old", some "k"⟩ := by
  refine ⟨?_, rfl, rfl, rfl⟩
  rintro ⟨p, hp, -⟩
  cases hp

end CatalogCall

end Polystore
