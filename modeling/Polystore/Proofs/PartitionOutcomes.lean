import Polystore.Proofs.GuardedDrops
import Polystore.Proofs.PartitionedTables

/-
  Polystore/Proofs/PartitionOutcomes.lean
  =======================================
  **Partitioning a table is all or nothing.**  The router publishes a new state for
  every group that it creates and one more for the partition function, so an error
  after the first of them would leave groups behind.  There is none: a request that
  passes the check of its column and its qualifiers either creates no group, and then
  installing is refused before anything has been published, or it goes through to the
  end, for the table exists, the column is one of the table, and the new groups are
  the table's own.  What is left is one state computed from the state before
  (`partition_outcome`).
-/

namespace Polystore

/-! ### Sessions that complete -/

namespace Session

variable {α β : Type} {c c' c'' : Catalog}

/-- The session gives a result and leaves a state behind. -/
def Completes (x : Session α) (c : Catalog) (a : α) (c' : Catalog) : Prop :=
  x.result c = .ok a ∧ x.after c = c'

theorem Completes.bind {x : Session α} {f : α → Session β} {a : α} {b : β}
    (hx : x.Completes c a c') (hf : (f a).Completes c' b c'') : (x >>= f).Completes c b c'' := by
  obtain ⟨hresult, rfl⟩ := hx
  have hrun : (x >>= f).run.run c = (ExceptT.bindCont f (x.result c)).run (x.after c) := rfl
  rw [hresult] at hrun
  exact ⟨(congrArg Prod.fst hrun).trans hf.1, (congrArg Prod.snd hrun).trans hf.2⟩

theorem Completes.lift_bind {x : Except Error α} {f : α → Session β} {a : α} {b : β}
    (hx : x = .ok a) (hf : (f a).Completes c b c') :
    Completes (liftM x >>= f : Session β) c b c' := by
  rw [hx]
  exact hf

theorem Completes.pure (a : α) (c : Catalog) : (Pure.pure a : Session α).Completes c a c :=
  ⟨rfl, rfl⟩

/-- A session is refused if its first step is. -/
theorem Refused.bind {x : Session α} (hx : x.Refused c) (f : α → Session β) :
    (x >>= f).Refused c := by
  obtain ⟨⟨e, he⟩, hafter⟩ := hx
  have hrun : (x >>= f).run.run c = (ExceptT.bindCont f (x.result c)).run (x.after c) := rfl
  rw [he, hafter] at hrun
  exact ⟨⟨e, congrArg Prod.fst hrun⟩, congrArg Prod.snd hrun⟩

/-- It is refused too if the steps before the refusal have changed nothing. -/
theorem Completes.bind_refused {x : Session α} {f : α → Session β} {a : α}
    (hx : x.Completes c a c') (hsame : c' = c) (hf : (f a).Refused c') : (x >>= f).Refused c := by
  subst hsame
  obtain ⟨hresult, hafter⟩ := hx
  have hrun : (x >>= f).run.run c' = (ExceptT.bindCont f (x.result c')).run (x.after c') := rfl
  rw [hresult, hafter] at hrun
  obtain ⟨⟨e, he⟩, hsame⟩ := hf
  exact ⟨⟨e, (congrArg Prod.fst hrun).trans he⟩, (congrArg Prod.snd hrun).trans hsame⟩

end Session

/-! ### New groups -/

/-- What a partitioning asks of a group. -/
structure GroupSpec where
  name : String
  qualifiers : List String
  unbound : Bool

def PartitionGroup.spec (g : PartitionGroup) : GroupSpec := ⟨g.name, g.qualifiers, g.unbound⟩

namespace Catalog

variable {c : Catalog} {t : Table} {id : TableId}

/-- Groups of a table with the numbers that follow `last`. -/
def groupsFor (id : TableId) (last : Nat) : List GroupSpec → List PartitionGroup
  | [] => []
  | s :: rest => ⟨⟨last + 1⟩, id, s.name, s.qualifiers, s.unbound⟩ :: groupsFor id (last + 1) rest

/-- The state in which the groups have been added, one after the other. -/
def withGroups (id : TableId) (specs : List GroupSpec) (c : Catalog) : Catalog :=
  { c with
    lastId := c.lastId + specs.length
    groups := c.groups ++ groupsFor id c.lastId specs
    version := c.version + specs.length }

theorem map_spec_groupsFor (id : TableId) (last : Nat) (specs : List GroupSpec) :
    (groupsFor id last specs).map (·.spec) = specs := by
  induction specs generalizing last with
  | nil => rfl
  | cons s rest ih => rw [groupsFor, List.map_cons, ih]; rfl

theorem table_of_mem_groupsFor {last : Nat} {specs : List GroupSpec} {g : PartitionGroup}
    (hg : g ∈ groupsFor id last specs) : g.table = id := by
  induction specs generalizing last with
  | nil => cases hg
  | cons s rest ih =>
    rcases List.mem_cons.mp hg with rfl | hg
    · rfl
    · exact ih hg

theorem groupsFor_append (id : TableId) (last : Nat) (specs specs' : List GroupSpec) :
    groupsFor id last (specs ++ specs') =
      groupsFor id last specs ++ groupsFor id (last + specs.length) specs' := by
  induction specs generalizing last with
  | nil => rfl
  | cons s rest ih =>
    rw [List.cons_append, groupsFor, groupsFor, ih, List.cons_append, List.length_cons,
      Nat.add_right_comm, Nat.add_assoc]

@[simp] theorem withGroups_nil (id : TableId) (c : Catalog) : withGroups id [] c = c := by
  simp [withGroups, groupsFor]

theorem withGroups_append (id : TableId) (specs specs' : List GroupSpec) (c : Catalog) :
    withGroups id (specs ++ specs') c = withGroups id specs' (withGroups id specs c) := by
  simp [withGroups, groupsFor_append, Nat.add_assoc]

theorem withGroups_cons (id : TableId) (s : GroupSpec) (rest : List GroupSpec) (c : Catalog) :
    withGroups id (s :: rest) c = withGroups id rest (withGroups id [s] c) :=
  withGroups_append id [s] rest c

theorem Linked.withGroups (h : c.Linked) (id : TableId) (specs : List GroupSpec) :
    (withGroups id specs c).Linked := by
  induction specs generalizing c with
  | nil => rwa [withGroups_nil]
  | cons s rest ih =>
    rw [withGroups_cons]
    exact ih ((h.withGroup id s.name s.qualifiers s.unbound).unplaced rfl rfl rfl
      (List.Subset.refl _) (Nat.le_refl _))

theorem group_of_mem_groupsFor (hc : c.Linked) {specs : List GroupSpec} {g : PartitionGroup}
    (hg : g ∈ groupsFor id c.lastId specs) :
    (withGroups id specs c).group g.id = .ok g ∧ g.table = id := by
  have hlinked := hc.withGroups id specs
  have hmem : g ∈ (withGroups id specs c).groups := List.mem_append_right _ hg
  exact ⟨find_eq_ok (fun g' hg' hid => hlinked.group_ext hg' hmem hid) hmem,
    table_of_mem_groupsFor hg⟩

/-- A column that a table names is one of the table. -/
theorem column_of_columnNamed (hc : c.Linked) {name : String} {x : Column}
    (h : c.columnNamed id name = .ok x) :
    ∃ t, c.table id = .ok t ∧ c.column x.id = .ok x ∧ x.table = id := by
  obtain ⟨columns, hcolumns, h⟩ := except_bind_eq_ok.mp h
  obtain ⟨t, ht, hcolumns⟩ := except_bind_eq_ok.mp hcolumns
  have hx : x ∈ columns := List.mem_of_find?_eq_some (require_eq_ok.mp h)
  obtain ⟨col, hcol, hfound⟩ := exists_of_forall₂_right (mapM_eq_ok.mp hcolumns) x hx
  obtain ⟨hmem, rfl⟩ := column_eq_ok hfound
  obtain ⟨hlisted, rfl⟩ := table_eq_ok ht
  obtain ⟨entry, hentry, hid, hown⟩ := hc.ownColumns t hlisted x.id hcol
  rw [hc.column_ext hentry hmem hid] at hown
  exact ⟨t, ht, hfound, hown⟩

theorem addGroup_completes (ht : c.table id = .ok t) (s : GroupSpec) :
    (addGroup id s.name s.qualifiers s.unbound).Completes c ⟨c.lastId + 1⟩
      (withGroups id [s] c) := by
  have hchange : (do
      discard <| c.table id
      return withGroup id s.name s.qualifiers s.unbound c : Except Error (PartitionId × Catalog)) =
      .ok (⟨c.lastId + 1⟩, (withGroup id s.name s.qualifiers s.unbound c).2) := by
    rw [ht]
    rfl
  exact ⟨result_publish hchange, (after_publish hchange).trans rfl⟩

/-- A function on one of the table's columns can be installed with some of its groups. -/
theorem install_completes {p : Partitioning} {x : Column} {groups : List PartitionGroup}
    (ht : c.table id = .ok t) (hx : c.column p.column = .ok x) (htable : x.table = id)
    (hne : groups ≠ []) (hgroups : ∀ g ∈ groups, c.group g.id = .ok g ∧ g.table = id) :
    (install id p (groups.map (·.id))).Completes c ()
      { installed id p (groups.map (·.id)) c with version := c.version + 1 } := by
  have hloop : (forIn (groups.map (·.id)) PUnit.unit fun g _ => do
      let entry ← c.group g
      ensure (entry.table = id) (foreignGroup g id)
      pure (ForInStep.yield PUnit.unit) : Except Error PUnit) = .ok ⟨⟩ := by
    have hends : Ends (fun _ => False) (forIn (groups.map (·.id)) PUnit.unit fun g _ => do
        (do ensure ((← c.group g).table = id) (foreignGroup g id))
        pure (ForInStep.yield PUnit.unit) : Except Error PUnit) fun _ =>
          ∀ g ∈ groups.map (·.id), True := by
      refine Ends.forIn fun g hg => ?_
      obtain ⟨entry, hentry, rfl⟩ := List.mem_map.mp hg
      obtain ⟨hfound, hown⟩ := hgroups entry hentry
      exact Ends.after hfound (Ends.ensure (fun h => by simp [hown] at h) fun _ => trivial)
    obtain ⟨⟨⟩, hok, -⟩ := hends.exists_result
    simpa only [bind_assoc] using hok
  have hinstalled : withPartitioning id p (groups.map (·.id)) c =
      .ok (installed id p (groups.map (·.id)) c) := by
    have hnonempty : ensure (!(groups.map (·.id)).isEmpty) (noGroups id) = .ok () :=
      ensure_eq_ok.mpr (by simpa using hne)
    have hown : ensure (x.table = id) (foreignColumn p.column id) = .ok () :=
      ensure_eq_ok.mpr (decide_eq_true htable)
    exact except_bind_eq_ok.mpr ⟨(), hnonempty, except_bind_eq_ok.mpr ⟨x, hx,
      except_bind_eq_ok.mpr ⟨(), hown, except_bind_eq_ok.mpr ⟨⟨⟩, hloop,
        except_bind_eq_ok.mpr ⟨(), by rw [ht]; rfl, rfl⟩⟩⟩⟩⟩
  have hchange : (do return ((), ← withPartitioning id p (groups.map (·.id)) c) :
      Except Error (Unit × Catalog)) = .ok ((), installed id p (groups.map (·.id)) c) := by
    rw [hinstalled]
    rfl
  exact ⟨result_publish hchange, after_publish hchange⟩

theorem install_refused (id : TableId) (p : Partitioning) (c : Catalog) :
    (install id p []).Refused c :=
  (publish_cases _ c).resolve_right fun ⟨_, _, h, _⟩ => by cases h

end Catalog

/-! ### What partitioning a table does -/

namespace Router

open Catalog (groupsFor withGroups installed)

variable {c : Catalog} {t : Table} {id : TableId} {settings : PartitionSettings}
  {kind : PartitionKind} {columnName : String} {count : Nat} {qualifiers : List (List String)}

/-- The groups for some qualifier lists, named by their positions from `i` on. -/
def boundSpecs (i : Nat) : List (List String) → List GroupSpec
  | [] => []
  | list :: rest => ⟨"p" ++ Number.natText i, list, false⟩ :: boundSpecs (i + 1) rest

/-- The group for values that no other one accepts, where the function needs it. -/
def unboundSpecs (kind : PartitionKind) : List GroupSpec :=
  if kind.needsUnbound then [⟨"UNBOUND", [], true⟩] else []

/-- The groups that a partitioning asks for, in routing order. -/
def requested (kind : PartitionKind) (count : Nat) (qualifiers : List (List String)) :
    List GroupSpec :=
  boundSpecs 0 (listsFor kind count qualifiers) ++ unboundSpecs kind

/-- The entries that are made for them. -/
def made (id : TableId) (kind : PartitionKind) (count : Nat) (qualifiers : List (List String))
    (c : Catalog) : List PartitionGroup :=
  groupsFor id c.lastId (requested kind count qualifiers)

/-- The state in which they have been created and the function on a column has been
    installed with them. -/
def partitioned (id : TableId) (kind : PartitionKind) (x : Column) (count : Nat)
    (qualifiers : List (List String)) (c : Catalog) : Catalog :=
  let next := withGroups id (requested kind count qualifiers) c
  { installed id ⟨kind, x.id⟩ ((made id kind count qualifiers c).map (·.id)) next with
    version := next.version + 1 }

theorem addGroups_completes (ht : c.table id = .ok t) (i : Nat) (lists : List (List String)) :
    (addGroups id i lists).Completes c ((groupsFor id c.lastId (boundSpecs i lists)).map (·.id))
      (withGroups id (boundSpecs i lists) c) := by
  induction lists generalizing i c with
  | nil =>
    rw [boundSpecs, Catalog.withGroups_nil]
    exact .pure [] c
  | cons list rest ih =>
    let first : GroupSpec := ⟨"p" ++ Number.natText i, list, false⟩
    have hrest := ih (c := withGroups id [first] c) ht (i + 1)
    rw [boundSpecs, Catalog.withGroups_cons]
    exact (Catalog.addGroup_completes ht first).bind (hrest.bind (.pure _ _))

theorem addUnbound_completes (ht : c.table id = .ok t) (kind : PartitionKind) :
    (addUnbound id kind).Completes c ((groupsFor id c.lastId (unboundSpecs kind)).map (·.id))
      (withGroups id (unboundSpecs kind) c) := by
  unfold addUnbound unboundSpecs
  by_cases hneeds : kind.needsUnbound = true
  · simp only [hneeds, if_true]
    exact (Catalog.addGroup_completes ht ⟨"UNBOUND", [], true⟩).bind (.pure _ _)
  · simp only [hneeds, Bool.false_eq_true, if_false, Catalog.withGroups_nil]
    exact .pure [] c

/-- A partitioning is refused, or it creates what was asked for and installs it. -/
theorem partition_outcome (hc : c.Linked) :
    (partition settings id kind columnName count qualifiers).Refused c ∨
      ∃ x t, c.columnNamed id columnName = .ok x ∧ c.table id = .ok t ∧
        kind.validate ⟨x.type, count, qualifiers⟩ settings = .ok () ∧
        requested kind count qualifiers ≠ [] ∧
        (partition settings id kind columnName count qualifiers).Completes c
          ((made id kind count qualifiers c).map (·.id))
          (partitioned id kind x count qualifiers c) := by
  cases hx : c.columnNamed id columnName with
  | error e => exact .inl (Session.refused_lift_bind hx _ c)
  | ok x =>
    cases hvalid : kind.validate ⟨x.type, count, qualifiers⟩ settings with
    | error e => exact .inl (.lift_bind hx _ c (Session.refused_lift_bind hvalid _ c))
    | ok u =>
      obtain ⟨t, ht, hcolumn, hown⟩ := Catalog.column_of_columnNamed hc hx
      let c₁ := withGroups id (boundSpecs 0 (listsFor kind count qualifiers)) c
      let c₂ := withGroups id (requested kind count qualifiers) c
      have hbound := addGroups_completes ht 0 (listsFor kind count qualifiers)
      have hunbound : (addUnbound id kind).Completes c₁
          ((groupsFor id c₁.lastId (unboundSpecs kind)).map (·.id)) c₂ := by
        have h := addUnbound_completes (c := c₁) ht kind
        rwa [← Catalog.withGroups_append] at h
      have hids : (made id kind count qualifiers c).map (·.id) =
          (groupsFor id c.lastId (boundSpecs 0 (listsFor kind count qualifiers))).map (·.id) ++
            (groupsFor id c₁.lastId (unboundSpecs kind)).map (·.id) := by
        rw [made, requested, Catalog.groupsFor_append, List.map_append]
        rfl
      by_cases hrequested : requested kind count qualifiers = []
      · obtain ⟨hnoBound, hnoUnbound⟩ := List.append_eq_nil_iff.mp hrequested
        have hc₁ : c₁ = c := by simp only [c₁, hnoBound, Catalog.withGroups_nil]
        have hc₂ : c₂ = c := by simp only [c₂, hrequested, Catalog.withGroups_nil]
        refine .inl (Session.Refused.lift_bind (x := c.columnNamed id columnName) hx _ c
          (.lift_bind hvalid _ c ?_))
        refine hbound.bind_refused hc₁ (hunbound.bind_refused (hc₂.trans hc₁.symm) ?_)
        rw [← hids, made, hrequested]
        exact (Catalog.install_refused id _ c₂).bind _
      · refine .inr ⟨x, t, rfl, ht, hvalid, hrequested,
          Session.Completes.lift_bind (x := c.columnNamed id columnName) hx (.lift_bind hvalid ?_)⟩
        refine hbound.bind (hunbound.bind ?_)
        rw [← hids]
        have hne : made id kind count qualifiers c ≠ [] := fun hnil => hrequested <| by
          rw [← Catalog.map_spec_groupsFor id c.lastId (requested kind count qualifiers)]
          exact congrArg (List.map PartitionGroup.spec) hnil
        have hgroups : ∀ g ∈ made id kind count qualifiers c,
            c₂.group g.id = .ok g ∧ g.table = id := fun g hg => Catalog.group_of_mem_groupsFor hc hg
        have ht₂ : c₂.table id = .ok t := ht
        have hinstall := Catalog.install_completes (p := ⟨kind, x.id⟩) ht₂ hcolumn hown hne hgroups
        exact hinstall.bind (.pure _ _)

/-- Afterwards the table has the groups that were made, and no others. -/
theorem partitioned_groups (hc : c.Linked) (kind : PartitionKind) {x : Column} (count : Nat)
    (qualifiers : List (List String)) (ht : c.table id = .ok t) (hx : c.column x.id = .ok x) :
    let c' := partitioned id kind x count qualifiers c
    c'.Partitioned id kind x (made id kind count qualifiers c) ∧
      ∀ g ∈ c'.groups, g.table = id → g ∈ made id kind count qualifiers c := by
  intro c'
  obtain ⟨hmem, hid⟩ := Catalog.table_eq_ok ht
  have hmade : ∀ g ∈ made id kind count qualifiers c, g ∈ c'.groups ∧ g.table = id := by
    intro g hg
    have hlisted : ((made id kind count qualifiers c).map (·.id)).contains g.id = true :=
      List.contains_iff_mem.mpr (List.mem_map_of_mem hg)
    refine ⟨List.mem_filter.mpr ⟨List.mem_append_right _ hg, ?_⟩, Catalog.table_of_mem_groupsFor hg⟩
    rw [hlisted, Bool.or_true]
  refine ⟨⟨⟨_, List.mem_map_of_mem hmem, ?_⟩, (Catalog.column_eq_ok hx).1, hmade⟩, ?_⟩
  · rw [if_pos hid]
    exact ⟨hid, rfl, rfl⟩
  · intro g hg hown
    obtain ⟨hg, hlive⟩ := List.mem_filter.mp hg
    have hlisted : g.id ∈ (made id kind count qualifiers c).map (·.id) := by
      simpa [hown] using hlive
    obtain ⟨g', hg', hsame⟩ := List.mem_map.mp hlisted
    have hlinked := hc.withGroups id (requested kind count qualifiers)
    rwa [hlinked.group_ext hg (List.mem_append_right _ hg') hsame.symm]

/-- Changes of the partitioning and of placements through the router are all or
    nothing: an error leaves the catalog as it was, and a partitioning that succeeds
    leaves the table with the groups that it returns, made as asked for, in routing
    order, and with no others. -/
theorem changes_are_all_or_nothing (hc : c.Reachable) (settings : PartitionSettings) (id : TableId)
    (kind : PartitionKind) (columnName : String) (count : Nat) (qualifiers : List (List String))
    (s : StoreId) (col : ColumnId) :
    let session := partition settings id kind columnName count qualifiers
    (∀ e, session.result c = .error e → session.after c = c) ∧
    (∀ gs, session.result c = .ok gs →
      let c' := session.after c
      ∃ t groups, c'.table id = .ok t ∧ t.groups = gs ∧ c'.groupsOf id = .ok groups ∧
        groups.map (·.id) = gs ∧ groups.map (·.spec) = requested kind count qualifiers ∧
        ∀ g ∈ c'.groups, g.table = id → g ∈ groups) ∧
    (∀ e, (dropColumn id s col).result c = .error e → (dropColumn id s col).after c = c) ∧
    ∀ e, (dropData id s).result c = .error e → (dropData id s).after c = c := by
  intro session
  refine ⟨fun e he => ?_, fun gs hgs => ?_, fun e he => ?_, fun e he => ?_⟩
  · rcases partition_outcome hc.linked with hrefused | ⟨_, _, _, _, _, _, hdone⟩
    · exact hrefused.2
    · cases he.symm.trans hdone.1
  · rcases partition_outcome hc.linked with ⟨⟨e, he⟩, -⟩ | ⟨x, t, hx, ht, -, -, hresult, hafter⟩
    · cases hgs.symm.trans he
    · obtain rfl := Except.ok.inj (hgs.symm.trans hresult)
      have hlinked := (partition_eq_ok hc hgs).1.linked
      obtain ⟨_, -, hcolumn, -⟩ := Catalog.column_of_columnNamed hc.linked hx
      obtain ⟨hpartitioned, honly⟩ :=
        partitioned_groups hc.linked kind count qualifiers ht hcolumn
      rw [hafter] at hlinked
      obtain ⟨t', ht', hid, -, hlisted⟩ := hpartitioned.table
      have htable := Catalog.find_eq_ok (e := Catalog.noTable id)
        (fun u hu h => hlinked.table_ext hu ht' h) ht'
      rw [hid] at htable
      intro c'
      rw [show c' = partitioned id kind x count qualifiers c from hafter]
      exact ⟨t', _, htable, hlisted, hpartitioned.groupsOf_eq hlinked, rfl,
        Catalog.map_spec_groupsFor .., honly⟩
  · rcases dropColumn_cases c id s col with hrefused | ⟨_, _, _, hresult, _⟩
    · exact hrefused.2
    · cases he.symm.trans hresult
  · rcases dropData_cases c id s with hrefused | ⟨_, _, _, hresult, _⟩
    · exact hrefused.2
    · cases he.symm.trans hresult

theorem changes_are_all_or_nothing_users :
    let session := partition {} ⟨3⟩ .list "name" 3 [["ann"], ["bob", "eve"]]
    (∃ t groups, (session.after users).table ⟨3⟩ = .ok t ∧ t.groups = [⟨7⟩, ⟨8⟩, ⟨9⟩] ∧
      (session.after users).groupsOf ⟨3⟩ = .ok groups ∧
      groups.map (·.spec) =
        [⟨"p0", ["ann"], false⟩, ⟨"p1", ["bob", "eve"], false⟩, ⟨"UNBOUND", [], true⟩]) ∧
      (partition { minHashGroups := 0 } ⟨3⟩ .hash "name" 0 []).after users = users ∧
      (dropColumn ⟨3⟩ ⟨1⟩ ⟨4⟩).after users = users ∧ (dropData ⟨3⟩ ⟨1⟩).after users = users := by
  have hreachable : users.Reachable :=
    (GuardedCall.run_guards (.createTable _ (.addStore _ _ (.addStore _ _ .empty))) _).1
  obtain ⟨-, hdone, hcolumn, hdata⟩ := changes_are_all_or_nothing hreachable {} ⟨3⟩ .list "name" 3
    [["ann"], ["bob", "eve"]] ⟨1⟩ ⟨4⟩
  obtain ⟨t, groups, ht, hlisted, hgroups, -, hspecs, -⟩ := hdone [⟨7⟩, ⟨8⟩, ⟨9⟩] rfl
  obtain ⟨hempty, -⟩ := changes_are_all_or_nothing hreachable { minHashGroups := 0 } ⟨3⟩ .hash
    "name" 0 [] ⟨1⟩ ⟨4⟩
  exact ⟨⟨t, groups, ht, hlisted, hgroups, hspecs⟩, hempty _ rfl, hcolumn _ rfl, hdata _ rfl⟩

end Router

end Polystore
