import Polystore.Proofs.CatalogCalls
import Polystore.Proofs.GuardedDrops
import Polystore.Proofs.Routing

/-
  Polystore/Proofs/PreferredPlacements.lean
  =========================================
  **Which placements are read.**  For every requested group and every column of the
  table one placement is chosen, and the choice is made for the column alone: a store
  that holds the column for all groups of the table comes first, then the store with
  the lowest identifier (`Preferred`).  The choice takes the first placement that it
  finds, which is the lowest one because a catalog keeps its placements in order
  (`Reachable.inOrder`).  The groups are taken one after the other, so a group that is
  asked for again only repeats its entry (`Selects.snoc`), and a request is answered
  exactly when all of it can be read.
-/

namespace Polystore

namespace Catalog

variable {c : Catalog} {t : Table} {p q r : Placement}

/-! ### The order of placements -/

/-- Placements in their order, each of them once. -/
def InOrder (placements : List Placement) : Prop :=
  placements.Pairwise fun p q => placementBefore p q = true

theorem placementBefore_iff : placementBefore p q = true ↔
    p.group.n < q.group.n ∨ p.group = q.group ∧
      (p.store.n < q.store.n ∨ p.store = q.store ∧ p.column.n < q.column.n) := by
  simp [placementBefore]

theorem placementBefore_trans (hpq : placementBefore p q = true) (hqr : placementBefore q r = true) :
    placementBefore p r = true := by
  obtain ⟨⟨g⟩, ⟨s⟩, ⟨col⟩⟩ := p
  obtain ⟨⟨g'⟩, ⟨s'⟩, ⟨col'⟩⟩ := q
  obtain ⟨⟨g''⟩, ⟨s''⟩, ⟨col''⟩⟩ := r
  rw [placementBefore_iff] at hpq hqr ⊢
  simp only [PartitionId.mk.injEq, StoreId.mk.injEq] at hpq hqr ⊢
  omega

theorem placementBefore_of_ne (hne : p ≠ q) (h : placementBefore p q = false) :
    placementBefore q p = true := by
  obtain ⟨⟨g⟩, ⟨s⟩, ⟨col⟩⟩ := p
  obtain ⟨⟨g'⟩, ⟨s'⟩, ⟨col'⟩⟩ := q
  rw [← Bool.not_eq_true, placementBefore_iff] at h
  rw [placementBefore_iff]
  simp only [ne_eq, Placement.mk.injEq, PartitionId.mk.injEq, StoreId.mk.injEq,
    ColumnId.mk.injEq] at hne h ⊢
  omega

theorem inOrder_insertPlacement {l : List Placement} (h : InOrder l) :
    InOrder (insertPlacement p l) := by
  induction l with
  | nil => exact List.pairwise_singleton _ _
  | cons first rest ih =>
    obtain ⟨hfirst, hrest⟩ := List.pairwise_cons.mp h
    unfold insertPlacement
    by_cases hsame : p = first
    · rw [if_pos hsame]
      exact h
    · rw [if_neg hsame]
      by_cases hbefore : placementBefore p first = true
      · rw [if_pos hbefore]
        refine List.pairwise_cons.mpr ⟨?_, h⟩
        intro q hq
        rcases List.mem_cons.mp hq with rfl | hq
        · exact hbefore
        · exact placementBefore_trans hbefore (hfirst q hq)
      · rw [if_neg hbefore]
        refine List.pairwise_cons.mpr ⟨?_, ih hrest⟩
        intro q hq
        rcases mem_insertPlacement.mp hq with rfl | hq
        · exact placementBefore_of_ne hsame (Bool.eq_false_iff.mpr hbefore)
        · exact hfirst q hq

/-- A catalog keeps its placements in order. -/
theorem Reachable.inOrder (h : c.Reachable) : InOrder c.placements := by
  refine h.writes_induction (P := fun c => InOrder c.placements) .nil ?_
  intro c c' x _ _ horder hwrites
  cases hwrites with
  | addPlacement => exact inOrder_insertPlacement horder
  | install | deleteColumn | deleteData => exact horder.filter _
  | addStore | createTable | addGroup | setNames | setRows => exact horder

/-! ### Full copies -/

/-- The store holds the column for every group of the table. -/
def FullCopy (c : Catalog) (t : Table) (s : StoreId) (col : ColumnId) : Prop :=
  ∀ g ∈ t.groups, ∃ p ∈ c.placements, p.column = col ∧ p.store = s ∧ p.group = g

theorem holdsColumn_iff {s : StoreId} {col : ColumnId} :
    c.holdsColumn s t.groups col = true ↔ c.FullCopy t s col := by
  simp [holdsColumn, FullCopy, Router.mem_placementsOf, and_assoc]

end Catalog

namespace Router

open Catalog (InOrder FullCopy holdsColumn_iff)

variable {c : Catalog} {t : Table} {g : PartitionId} {col : ColumnId} {p : Placement}

/-! ### The placement of one column -/

/-- The placement from which a column is read for a group. -/
structure Preferred (c : Catalog) (t : Table) (g : PartitionId) (col : ColumnId) (p : Placement) :
    Prop where
  placed : p ∈ c.placements
  column : p.column = col
  group : p.group = g
  /-- If there is a full copy of the column, a full copy is read. -/
  full : (∃ s, c.FullCopy t s col) → c.FullCopy t p.store col
  /-- Of the stores that are equally preferred the lowest one is read. -/
  lowest : ∀ q ∈ c.placements, q.column = col → q.group = g →
    (c.FullCopy t q.store col ↔ c.FullCopy t p.store col) → p.store.n ≤ q.store.n

/-- The placements of a column for a group. -/
abbrev holders (c : Catalog) (g : PartitionId) (col : ColumnId) : List Placement :=
  (c.placementsOf col).filter (·.group = g)

theorem mem_holders : p ∈ holders c g col ↔ p ∈ c.placements ∧ p.column = col ∧ p.group = g := by
  simp [mem_placementsOf, and_assoc]

theorem holders_ascending (hc : InOrder c.placements) :
    (holders c g col).Pairwise fun p q => p.store.n < q.store.n := by
  refine ((hc.filter _).filter _).imp_of_mem fun {p q} hp hq hbefore => ?_
  obtain ⟨-, hpcol, hpgroup⟩ := mem_holders.mp hp
  obtain ⟨-, hqcol, hqgroup⟩ := mem_holders.mp hq
  rw [Catalog.placementBefore_iff, hpcol, hqcol, hpgroup, hqgroup] at hbefore
  omega

/-- What a search through the holders finds is the lowest of those that it is for. -/
theorem lowest_of_find? (hc : InOrder c.placements) {test : Placement → Bool}
    (h : (holders c g col).find? test = some p) {q : Placement} (hq : q ∈ holders c g col)
    (htest : test q = true) : p.store.n ≤ q.store.n := by
  obtain ⟨-, before, after, hsplit, hbefore⟩ := List.find?_eq_some_iff_append.mp h
  have hascending : (holders c g col).Pairwise fun p q => p.store.n < q.store.n :=
    holders_ascending hc
  rw [hsplit] at hq hascending
  rcases List.mem_append.mp hq with hq | hq
  · have hfails := hbefore q hq
    rw [htest] at hfails
    cases hfails
  · rcases List.mem_cons.mp hq with rfl | hq
    · exact Nat.le_refl _
    · exact Nat.le_of_lt
        ((List.pairwise_cons.mp (List.pairwise_append.mp hascending).2.1).1 q hq)

theorem choose_eq_ok : choose c t g col = .ok p ↔
    (holders c g col).find? (fun p => c.holdsColumn p.store t.groups col) = some p ∨
      (holders c g col).find? (fun p => c.holdsColumn p.store t.groups col) = none ∧
        (holders c g col).head? = some p := by
  rw [choose, require_eq_ok, Option.orElse_eq_orElse, Option.orElse_eq_or, Option.or_eq_some_iff]

theorem preferred_of_choose (hc : InOrder c.placements) (hg : g ∈ t.groups)
    (h : choose c t g col = .ok p) : Preferred c t g col p := by
  have hfullIff (q : Placement) :
      c.holdsColumn q.store t.groups col = true ↔ c.FullCopy t q.store col := holdsColumn_iff
  have hmem {q : Placement} (hq : q ∈ c.placements) (hcol : q.column = col) (hgroup : q.group = g) :
      q ∈ holders c g col := mem_holders.mpr ⟨hq, hcol, hgroup⟩
  rcases choose_eq_ok.mp h with hfull | ⟨hnone, hfirst⟩
  · -- a full copy was found
    obtain ⟨hplaced, hcolumn, hgroup⟩ := mem_holders.mp (List.mem_of_find?_eq_some hfull)
    have htest := List.find?_some hfull
    have hcopy : c.FullCopy t p.store col := (hfullIff p).mp htest
    refine ⟨hplaced, hcolumn, hgroup, fun _ => hcopy, fun q hq hqcol hqgroup hsame => ?_⟩
    exact lowest_of_find? hc hfull (hmem hq hqcol hqgroup) ((hfullIff q).mpr (hsame.mpr hcopy))
  · have hall : (holders c g col).find? (fun _ => true) = some p := by
      rw [← hfirst]
      cases holders c g col <;> rfl
    obtain ⟨hplaced, hcolumn, hgroup⟩ := mem_holders.mp (List.mem_of_find?_eq_some hall)
    refine ⟨hplaced, hcolumn, hgroup, ?_, fun q hq hqcol hqgroup _ => ?_⟩
    · -- a store with a full copy would be a holder for this group as well
      rintro ⟨s, hs⟩
      obtain ⟨q, hq, hqcol, rfl, hqgroup⟩ := hs g hg
      exact absurd ((hfullIff q).mpr hs) (List.find?_eq_none.mp hnone q (hmem hq hqcol hqgroup))
    · exact lowest_of_find? hc hall (hmem hq hqcol hqgroup) rfl

/-! ### The placements of several groups -/

/-- An answer to a request: one entry a requested group, with the placement that is
    preferred for each column of the table. -/
structure Selects (c : Catalog) (t : Table) (groups : List PartitionId)
    (chosen : ByGroup (List Placement)) : Prop where
  belongs : ∀ g ∈ groups, g ∈ t.groups
  ascending : chosen.Pairwise fun e e' => e.1.n < e'.1.n
  requested : ∀ g, g ∈ chosen.map (·.1) ↔ g ∈ groups
  preferred : ∀ e ∈ chosen, List.Forall₂ (Preferred c t e.1) t.columns e.2

namespace Selects

variable {groups rest : List PartitionId} {chosen : ByGroup (List Placement)}

theorem nil (c : Catalog) (t : Table) : Selects c t [] [] where
  belongs := by simp
  ascending := .nil
  requested := by simp
  preferred := by simp

/-- One more group, which may have been requested before. -/
theorem snoc (h : Selects c t groups chosen) (hg : g ∈ t.groups) {placements : List Placement}
    (hpreferred : List.Forall₂ (Preferred c t g) t.columns placements) :
    Selects c t (groups ++ [g]) (chosen.modify g [] fun _ => placements) := by
  obtain ⟨before, old, after, hmodify, hsorted, hchosen⟩ :=
    ByGroup.modify_cases (g := g) (d := []) (f := fun _ => placements) h.ascending
  have hold : ∀ e, e ∈ before ∨ e ∈ after → e ∈ chosen := by
    intro e he
    rcases hchosen with rfl | ⟨rfl, -⟩ <;> rcases he with he | he <;> simp [he]
  have hkeys (k : PartitionId) : k ∈ (before ++ (g, placements) :: after).map (·.1) ↔
      k ∈ chosen.map (·.1) ∨ k = g := by
    rcases hchosen with rfl | ⟨rfl, -⟩ <;>
      simp only [List.map_append, List.map_cons, List.mem_append, List.mem_cons] <;> tauto
  rw [hmodify]
  refine ⟨?_, hsorted, fun k => ?_, fun e he => ?_⟩
  · exact List.forall_mem_append.mpr ⟨h.belongs, List.forall_mem_singleton.mpr hg⟩
  · rw [hkeys, h.requested, List.mem_append, List.mem_singleton]
  · rcases List.mem_append.mp he with he | he
    · exact h.preferred e (hold e (.inl he))
    · rcases List.mem_cons.mp he with rfl | he
      · exact hpreferred
      · exact h.preferred e (hold e (.inr he))

/-- What is selected is covered. -/
theorem covered (h : Selects c t groups chosen) (hg : g ∈ groups) :
    ∀ col ∈ t.columns, c.Covered col g := by
  obtain ⟨e, he, rfl⟩ := List.mem_map.mp ((h.requested g).mpr hg)
  intro col hcol
  obtain ⟨p, -, hp⟩ := exists_of_forall₂_left (h.preferred e he) col hcol
  exact ⟨p, hp.placed, hp.column, hp.group⟩

/-- The rest of the request. -/
theorem of_foldlM (hc : InOrder c.placements) (h : Selects c t groups chosen)
    {result : ByGroup (List Placement)}
    (hfold : rest.foldlM (fun (chosen : ByGroup (List Placement)) g => do
      ensure (t.groups.contains g) (foreignPartition g t)
      let placements ← t.columns.mapM (choose c t g)
      return chosen.modify g [] fun _ => placements) chosen = .ok result) :
    Selects c t (groups ++ rest) result := by
  induction rest generalizing groups chosen with
  | nil =>
    obtain rfl := Except.ok.inj hfold
    rwa [List.append_nil]
  | cons g rest ih =>
    rw [List.foldlM_cons] at hfold
    obtain ⟨next, hnext, hfold⟩ := except_bind_eq_ok.mp hfold
    obtain ⟨_, hbelongs, hnext⟩ := except_bind_eq_ok.mp hnext
    obtain ⟨placements, hplacements, hnext⟩ := except_bind_eq_ok.mp hnext
    obtain rfl := Except.ok.inj hnext
    have hg : g ∈ t.groups := List.contains_iff_mem.mp (ensure_eq_ok.mp hbelongs)
    have hpreferred : List.Forall₂ (Preferred c t g) t.columns placements :=
      (mapM_eq_ok.mp hplacements).imp fun _ _ hchoose => preferred_of_choose hc hg hchoose
    rw [← List.singleton_append, ← List.append_assoc]
    exact ih (h.snoc hg hpreferred) hfold

end Selects

/-- A request for placements is answered exactly when the table has all its groups and
    every column of the table is placed for each of them.  The answer has one entry for
    each group that was requested, and in it one placement a column, in the order of
    the columns: that of a full copy of the column, if there is one, and the lowest one
    of those that are equally preferred. -/
theorem relevantPlacements_prefer_full (hc : c.Reachable) (id : TableId)
    (groups : List PartitionId) :
    ((∃ chosen, relevantPlacements c id groups = .ok chosen) ↔
      ∃ t, c.table id = .ok t ∧
        ∀ g ∈ groups, g ∈ t.groups ∧ ∀ col ∈ t.columns, c.Covered col g) ∧
    ∀ chosen, relevantPlacements c id groups = .ok chosen →
      ∃ t, c.table id = .ok t ∧ Selects c t groups chosen := by
  have hselects (chosen : ByGroup (List Placement))
      (hchosen : relevantPlacements c id groups = .ok chosen) :
      ∃ t, c.table id = .ok t ∧ Selects c t groups chosen := by
    obtain ⟨t, ht, hfold⟩ := except_bind_eq_ok.mp hchosen
    exact ⟨t, ht, (Selects.nil c t).of_foldlM hc.inOrder hfold⟩
  refine ⟨⟨?_, ?_⟩, hselects⟩
  · rintro ⟨chosen, hchosen⟩
    obtain ⟨t, ht, hselect⟩ := hselects chosen hchosen
    exact ⟨t, ht, fun g hg => ⟨hselect.belongs g hg, hselect.covered hg⟩⟩
  · rintro ⟨t, ht, hcovered⟩
    exact exists_relevantPlacements_of_covered ht hcovered

/-- The column `c4` is copied in full by the second store and `c5` by the first one. -/
theorem relevantPlacements_prefer_full_perColumn :
    let table : TableDef :=
      ⟨"app", "users", [⟨"id", .bigint, false⟩, ⟨"name", .string, true⟩], [], [], none⟩
    let calls : List CatalogCall :=
      [.addStore "wide" .wideColumn, .addStore "docs" .document, .createTable table,
        .addGroup ⟨3⟩ "p0" [] false, .addGroup ⟨3⟩ "p1" [] false,
        .install ⟨3⟩ ⟨.hash, ⟨4⟩⟩ [⟨7⟩, ⟨8⟩],
        .addPlacement ⟨1⟩ ⟨4⟩ ⟨7⟩, .addPlacement ⟨2⟩ ⟨4⟩ ⟨7⟩, .addPlacement ⟨2⟩ ⟨4⟩ ⟨8⟩,
        .addPlacement ⟨1⟩ ⟨5⟩ ⟨7⟩, .addPlacement ⟨1⟩ ⟨5⟩ ⟨8⟩, .addPlacement ⟨2⟩ ⟨5⟩ ⟨7⟩]
    let c := CatalogCall.run calls {}
    let chosen : ByGroup (List Placement) :=
      [(⟨7⟩, [⟨⟨7⟩, ⟨2⟩, ⟨4⟩⟩, ⟨⟨7⟩, ⟨1⟩, ⟨5⟩⟩]), (⟨8⟩, [⟨⟨8⟩, ⟨2⟩, ⟨4⟩⟩, ⟨⟨8⟩, ⟨1⟩, ⟨5⟩⟩])]
    c.Reachable ∧ relevantPlacements c ⟨3⟩ [⟨8⟩, ⟨7⟩, ⟨8⟩] = .ok chosen ∧
      ∃ t, c.table ⟨3⟩ = .ok t ∧ Selects c t [⟨8⟩, ⟨7⟩, ⟨8⟩] chosen := by
  intro table calls c chosen
  have hc : c.Reachable := CatalogCall.reachable_run .empty calls
  have hchosen : relevantPlacements c ⟨3⟩ [⟨8⟩, ⟨7⟩, ⟨8⟩] = .ok chosen := by decide +kernel
  exact ⟨hc, hchosen, (relevantPlacements_prefer_full hc ⟨3⟩ _).2 chosen hchosen⟩

end Router

end Polystore
