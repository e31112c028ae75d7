import Polystore.Partition.Router
import Polystore.Proofs.CatalogCalls

/-
  Polystore/Proofs/PartitionedTables.lean
  =======================================
  **Tables that the router has partitioned.**  A request is checked before
  anything is created, and what the check has accepted is what routing reads
  later: the groups are made from the checked qualifiers, and the column has the
  checked type (`Fits`).  So every value has a group among those that were created
  (`Fits.exists_target`).  A table stays as the router has left it (`Partitioned`)
  until another partition function is installed on it.
-/

namespace Polystore

/-! ### Sequences of changes -/

namespace Session

variable {α β : Type}

theorem bind_eq_ok {x : Session α} {f : α → Session β} {c : Catalog} {b : β}
    (h : (x >>= f).result c = .ok b) : ∃ a, x.result c = .ok a ∧
      (f a).result (x.after c) = .ok b ∧ (x >>= f).after c = (f a).after (x.after c) := by
  have hrun : (x >>= f).run.run c = (ExceptT.bindCont f (x.result c)).run (x.after c) := rfl
  cases hx : x.result c with
  | error e =>
    rw [result, hrun, hx] at h
    cases h
  | ok a =>
    rw [hx] at hrun
    refine ⟨a, rfl, ?_, congrArg Prod.snd hrun⟩
    rw [← h]
    exact (congrArg Prod.fst hrun).symm

theorem lift_bind_eq_ok {x : Except Error α} {f : α → Session β} {c : Catalog} {b : β}
    (h : (liftM x >>= f : Session β).result c = .ok b) : ∃ a, x = .ok a ∧
      (f a).result c = .ok b ∧ (liftM x >>= f : Session β).after c = (f a).after c := by
  cases x with
  | error e => cases h
  | ok a => exact ⟨a, rfl, h, rfl⟩

end Session

/-! ### What routing reads -/

namespace Catalog

variable {c c' : Catalog} {id : TableId} {kind : PartitionKind} {x : Column}
  {groups : List PartitionGroup}

/-- An entry is found by what tells it from all others. -/
theorem find_eq_ok {α κ : Type} [DecidableEq κ] {key : α → κ} {l : List α} {a : α} {e : Error}
    (hunique : ∀ x ∈ l, key x = key a → x = a) (ha : a ∈ l) :
    require e (l.find? (key · = key a)) = .ok a := by
  rw [require_eq_ok]
  cases hfind : l.find? (key · = key a) with
  | none =>
    have hdiffers := List.find?_eq_none.mp hfind a ha
    simp at hdiffers
  | some b =>
    have hkey : key b = key a := by simpa using List.find?_some hfind
    rw [hunique b (List.mem_of_find?_eq_some hfind) hkey]

theorem columnNamed_eq_ok {name : String} (h : c.columnNamed id name = .ok x) : x ∈ c.columns := by
  obtain ⟨columns, hcolumns, h⟩ := except_bind_eq_ok.mp h
  obtain ⟨t, -, hcolumns⟩ := except_bind_eq_ok.mp hcolumns
  have hx : x ∈ columns := List.mem_of_find?_eq_some (require_eq_ok.mp h)
  obtain ⟨_, -, hcolumn⟩ := exists_of_forall₂_right (mapM_eq_ok.mp hcolumns) x hx
  exact (column_eq_ok hcolumn).1

/-- The table is partitioned by the column into the groups, in routing order. -/
structure Partitioned (c : Catalog) (id : TableId) (kind : PartitionKind) (x : Column)
    (groups : List PartitionGroup) : Prop where
  table : ∃ t ∈ c.tables,
    t.id = id ∧ t.partitioning = some ⟨kind, x.id⟩ ∧ t.groups = groups.map (·.id)
  column : x ∈ c.columns
  groups : ∀ g ∈ groups, g ∈ c.groups ∧ g.table = id

namespace Partitioned

theorem groupsOf_eq (h : c.Partitioned id kind x groups) (hc : c.Linked) :
    c.groupsOf id = .ok groups := by
  obtain ⟨t, ht, rfl, -, hgroups⟩ := h.table
  have htable : c.table t.id = .ok t := find_eq_ok (fun u hu hid => hc.table_ext hu ht hid) ht
  refine except_bind_eq_ok.mpr ⟨t, htable, ?_⟩
  rw [hgroups, mapM_eq_ok, List.forall₂_map_left_iff, List.forall₂_same]
  intro g hg
  have hmem : g ∈ c.groups := (h.groups g hg).1
  exact find_eq_ok (fun g' hg' hid => hc.group_ext hg' hmem hid) hmem

/-- Routing applies the partition function to these groups and the column's type. -/
theorem target_eq (h : c.Partitioned id kind x groups) (hc : c.Linked) (v : Value) :
    Router.target c id v = kind.target groups x.type v := by
  have hgroupsOf := h.groupsOf_eq hc
  obtain ⟨t, ht, rfl, hfunction, hgroups⟩ := h.table
  have htable : c.table t.id = .ok t := find_eq_ok (fun u hu hid => hc.table_ext hu ht hid) ht
  have hcolumn : c.column x.id = .ok x :=
    find_eq_ok (fun y hy hid => hc.column_ext hy h.column hid) h.column
  have hpartitioning : c.partitioning t.id = .ok (some ⟨kind, x.id⟩) :=
    except_bind_eq_ok.mpr ⟨t, htable, congrArg Except.ok hfunction⟩
  unfold Router.target
  rw [hgroupsOf, hpartitioning]
  change (c.column x.id >>= fun column => kind.target groups column.type v) = _
  rw [hcolumn]
  rfl

/-- The table, its columns and its groups are all that matters. -/
theorem mono (h : c.Partitioned id kind x groups)
    (htables : ∀ t ∈ c.tables, t.id = id → ∃ t' ∈ c'.tables,
      t'.id = t.id ∧ t'.partitioning = t.partitioning ∧ t'.groups = t.groups)
    (hcolumns : c.columns ⊆ c'.columns) (hgroups : ∀ g ∈ c.groups, g.table = id → g ∈ c'.groups) :
    c'.Partitioned id kind x groups where
  table := by
    obtain ⟨t, ht, hid, hfunction, hlisted⟩ := h.table
    obtain ⟨t', ht', hid', hfunction', hlisted'⟩ := htables t ht hid
    exact ⟨t', ht', hid'.trans hid, hfunction'.trans hfunction, hlisted'.trans hlisted⟩
  column := hcolumns h.column
  groups := by
    intro g hg
    obtain ⟨hmem, htable⟩ := h.groups g hg
    exact ⟨hgroups g hmem htable, htable⟩

end Partitioned

end Catalog

namespace CatalogCall

open Catalog (Partitioned)

variable {c c' : Catalog} {call : CatalogCall} {id : TableId} {kind : PartitionKind} {x : Column}
  {groups : List PartitionGroup}

/-- The call installs a partition function on the table. -/
def Repartitions (id : TableId) (call : CatalogCall) (c : Catalog) : Prop :=
  (∃ p groups, call = install id p groups) ∧ call.after c ≠ c

theorem Writes.version_eq (h : Writes c call c') : c'.version = c.version + 1 := by
  cases h <;> rfl

theorem Writes.partitioned (hwrites : Writes c call c') (h : c.Partitioned id kind x groups)
    (hother : ∀ p groups, call ≠ .install id p groups) : c'.Partitioned id kind x groups := by
  have hsame {t : Table} (ht : t ∈ c.tables) : ∃ t' ∈ c.tables,
      t'.id = t.id ∧ t'.partitioning = t.partitioning ∧ t'.groups = t.groups :=
    ⟨t, ht, rfl, rfl, rfl⟩
  cases hwrites with
  | addStore =>
    exact h.mono (fun t ht _ => hsame ht) (List.Subset.refl _) fun g hg _ => hg
  | createTable =>
    refine h.mono ?_ (List.subset_append_left _ _) fun g hg _ => List.mem_append_left _ hg
    intro t ht _
    exact ⟨t, List.mem_append_left _ ht, rfl, rfl, rfl⟩
  | addGroup =>
    exact h.mono (fun t ht _ => hsame ht) (List.Subset.refl _) fun g hg _ =>
      List.mem_append_left _ hg
  | @install id' p listed =>
    have hdiffers : id ≠ id' := by
      rintro rfl
      exact hother p listed rfl
    refine h.mono ?_ (List.Subset.refl _) ?_
    · intro t ht hid
      refine ⟨_, List.mem_map_of_mem ht, ?_⟩
      rw [if_neg (hid ▸ hdiffers)]
      exact ⟨rfl, rfl, rfl⟩
    · intro g hg htable
      exact List.mem_filter.mpr ⟨hg, by simp [htable, hdiffers]⟩
  | addPlacement =>
    exact h.mono (fun t ht _ => hsame ht) (List.Subset.refl _) fun g hg _ => hg
  | setNames =>
    exact h.mono (fun t ht _ => hsame ht) (List.Subset.refl _) fun g hg _ => hg
  | deleteColumn =>
    exact h.mono (fun t ht _ => hsame ht) (List.Subset.refl _) fun g hg _ => hg
  | deleteData =>
    exact h.mono (fun t ht _ => hsame ht) (List.Subset.refl _) fun g hg _ => hg
  | @setRows id' =>
    refine h.mono ?_ (List.Subset.refl _) fun g hg _ => hg
    intro t ht _
    refine ⟨_, List.mem_map_of_mem ht, ?_⟩
    by_cases hid : t.id = id'
    · rw [if_pos hid]
      exact ⟨rfl, rfl, rfl⟩
    · rw [if_neg hid]
      exact ⟨rfl, rfl, rfl⟩

/-- Other calls leave the table partitioned as it is. -/
theorem partitioned_run {calls : List CatalogCall} (h : c.Partitioned id kind x groups)
    (hcalls : Throughout (fun call c => ¬call.Repartitions id c) calls c) :
    (run calls c).Partitioned id kind x groups := by
  induction calls generalizing c with
  | nil => exact h
  | cons call rest ih =>
    obtain ⟨hother, hrest⟩ := hcalls
    have hcall : (call.after c).Partitioned id kind x groups := by
      rcases after_cases call c with hsame | hwrites
      · rw [hsame]
        exact h
      refine hwrites.partitioned h ?_
      intro p listed hinstall
      apply hother
      refine ⟨⟨p, listed, hinstall⟩, ?_⟩
      intro hsame
      have hversion := hwrites.version_eq
      rw [hsame] at hversion
      omega
    exact ih hcall hrest

end CatalogCall

/-! ### Groups that fit their function -/

namespace Partition

/-- The groups are enough for the function to route every value of the column. -/
structure Fits (kind : PartitionKind) (type : DataType) (groups : List PartitionGroup) : Prop where
  nonempty : groups ≠ []
  unbound : kind.needsUnbound = true → ∃ g ∈ groups, g.unbound = true
  bounded : kind = .range → ∀ g ∈ groups, g.unbound = false → ∃ r, bounds g.qualifiers type = .ok r
  listed : kind = .list → type.isNumeric = true →
    ∀ g ∈ groups, g.unbound = false → ∀ q ∈ g.qualifiers, ∃ w, Value.parse q type = .ok w
  distinct : (groups.map (·.id)).Nodup

variable {type : DataType} {groups : List PartitionGroup}

theorem exists_targetHash (hne : groups ≠ []) (v : Value) :
    ∃ g ∈ groups, targetHash groups v = .ok g.id := by
  have hlt : (hash v).toNat % groups.length < groups.length :=
    Nat.mod_lt _ (List.length_pos_iff.mpr hne)
  refine ⟨groups[(hash v).toNat % groups.length], List.getElem_mem hlt, ?_⟩
  rw [targetHash, List.getElem?_eq_getElem hlt]
  rfl

/-- Every value that no other group accepts has the same one. -/
theorem exists_unboundGroup (h : ∃ g ∈ groups, g.unbound = true) :
    ∃ g ∈ groups, g.unbound = true ∧ ∀ v, unboundGroup groups v = .ok g.id := by
  unfold unboundGroup
  cases hfind : groups.find? (·.unbound) with
  | none =>
    obtain ⟨g, hg, hunbound⟩ := h
    exact absurd hunbound (List.find?_eq_none.mp hfind g hg)
  | some g => exact ⟨g, List.mem_of_find?_eq_some hfind, List.find?_some hfind, fun _ => rfl⟩

theorem exists_targetList (h : ∃ g ∈ groups, g.unbound = true) (type : DataType) (v : Value) :
    ∃ g ∈ groups, targetList groups type v = .ok g.id := by
  unfold targetList
  split
  case h_1 g hfind => exact ⟨g, List.mem_of_find?_eq_some hfind, rfl⟩
  case h_2 =>
    obtain ⟨g, hg, -, hunbound⟩ := exists_unboundGroup h
    exact ⟨g, hg, hunbound v⟩

theorem rangeContaining?_cases (hbounded : ∀ g ∈ groups, ∃ r, bounds g.qualifiers type = .ok r)
    (x : Float) : rangeContaining? type x groups = .ok none ∨
      ∃ g ∈ groups, rangeContaining? type x groups = .ok (some g.id) := by
  induction groups with
  | nil => exact .inl rfl
  | cons g rest ih =>
    obtain ⟨⟨lower, upper⟩, hbounds⟩ := hbounded g (by simp)
    have hstep : rangeContaining? type x (g :: rest) =
        if lower ≤ x ∧ x ≤ upper then .ok (some g.id) else rangeContaining? type x rest := by
      rw [rangeContaining?, hbounds]
      rfl
    rw [hstep]
    by_cases hinside : lower ≤ x ∧ x ≤ upper
    · rw [if_pos hinside]
      exact .inr ⟨g, by simp, rfl⟩
    · rw [if_neg hinside]
      rcases ih fun g' hg' => hbounded g' (List.mem_cons_of_mem g hg') with hnone | ⟨g', hg', hsome⟩
      · exact .inl hnone
      · exact .inr ⟨g', List.mem_cons_of_mem g hg', hsome⟩

theorem exists_targetRange (hunbound : ∃ g ∈ groups, g.unbound = true)
    (hbounded : ∀ g ∈ groups, g.unbound = false → ∃ r, bounds g.qualifiers type = .ok r)
    (v : Value) : ∃ g ∈ groups, targetRange groups type v = .ok g.id := by
  obtain ⟨other, hother, -, heq⟩ := exists_unboundGroup hunbound
  unfold targetRange
  cases v.asDouble? with
  | none => exact ⟨other, hother, heq v⟩
  | some x =>
    have hbounded' : ∀ g ∈ groups.filter (!·.unbound), ∃ r, bounds g.qualifiers type = .ok r := by
      intro g hg
      obtain ⟨hmem, hbound⟩ := List.mem_filter.mp hg
      exact hbounded g hmem (by simpa using hbound)
    rcases rangeContaining?_cases hbounded' x with hnone | ⟨g, hg, hsome⟩
    · simp only [hnone]
      exact ⟨other, hother, heq v⟩
    · simp only [hsome]
      exact ⟨g, (List.mem_filter.mp hg).1, rfl⟩

/-- Every value has a group. -/
theorem Fits.exists_target {kind : PartitionKind} (h : Fits kind type groups) (v : Value) :
    ∃ g ∈ groups, kind.target groups type v = .ok g.id := by
  cases kind with
  | hash => exact exists_targetHash h.nonempty v
  | list => exact exists_targetList (h.unbound rfl) type v
  | range => exact exists_targetRange (h.unbound rfl) (h.bounded rfl) v

/-- Every list of bounds that the check of the intervals passes can be read. -/
theorem readRanges_eq_ok {i : Nat} {lists : List (List String)} {ranges : List Range}
    (h : readRanges type i lists = .ok ranges) :
    ∀ list ∈ lists, ∃ r, bounds list type = .ok r := by
  induction lists generalizing i ranges with
  | nil => simp
  | cons list rest ih =>
    obtain ⟨r, hbounds, h⟩ := except_bind_eq_ok.mp h
    obtain ⟨_, -, h⟩ := except_bind_eq_ok.mp h
    obtain ⟨_, hrest, -⟩ := except_bind_eq_ok.mp h
    intro list' hlist
    rcases List.mem_cons.mp hlist with rfl | hlist
    · exact ⟨r, hbounds⟩
    · exact ih hrest list' hlist

theorem validateRange_eq_ok {r : PartitionRequest} {s : PartitionSettings} {u : Unit}
    (h : validateRange r s = .ok u) : ∀ list ∈ r.qualifiers, ∃ b, bounds list r.type = .ok b := by
  obtain ⟨_, -, h⟩ := except_bind_eq_ok.mp h
  obtain ⟨_, -, h⟩ := except_bind_eq_ok.mp h
  obtain ⟨_, -, h⟩ := except_bind_eq_ok.mp h
  obtain ⟨_, hranges, -⟩ := except_bind_eq_ok.mp h
  exact readRanges_eq_ok hranges

theorem validateQualifiers_eq_ok {seen seen' : List (List Char)} {qualifiers : List String}
    (h : validateQualifiers type seen qualifiers = .ok seen') (hnumeric : type.isNumeric = true) :
    ∀ q ∈ qualifiers, ∃ w, Value.parse q type = .ok w := by
  induction qualifiers generalizing seen with
  | nil => simp
  | cons q rest ih =>
    obtain ⟨_, hreads, h⟩ := except_bind_eq_ok.mp h
    obtain ⟨_, -, hrest⟩ := except_bind_eq_ok.mp h
    intro q' hq
    rcases List.mem_cons.mp hq with rfl | hq
    · have hok : (Value.parse q' type).isOk = true := by
        simpa [hnumeric] using ensure_eq_ok.mp hreads
      cases hparse : Value.parse q' type with
      | error e =>
        rw [hparse] at hok
        cases hok
      | ok w => exact ⟨w, rfl⟩
    · exact ih hrest q' hq

theorem validateLists_eq_ok {seen : List (List Char)} {i : Nat} {lists : List (List String)}
    {u : Unit} (h : validateLists type seen i lists = .ok u) (hnumeric : type.isNumeric = true) :
    ∀ list ∈ lists, ∀ q ∈ list, ∃ w, Value.parse q type = .ok w := by
  induction lists generalizing seen i with
  | nil => simp
  | cons list rest ih =>
    obtain ⟨_, -, h⟩ := except_bind_eq_ok.mp h
    obtain ⟨_, hlist, hrest⟩ := except_bind_eq_ok.mp h
    intro list' hmem
    rcases List.mem_cons.mp hmem with rfl | hmem
    · exact validateQualifiers_eq_ok hlist hnumeric
    · exact ih hrest list' hmem

theorem validateList_eq_ok {r : PartitionRequest} {s : PartitionSettings} {u : Unit}
    (h : validateList r s = .ok u) (hnumeric : r.type.isNumeric = true) :
    ∀ list ∈ r.qualifiers, ∀ q ∈ list, ∃ w, Value.parse q r.type = .ok w := by
  obtain ⟨_, -, h⟩ := except_bind_eq_ok.mp h
  obtain ⟨_, -, h⟩ := except_bind_eq_ok.mp h
  obtain ⟨_, hlists, -⟩ := except_bind_eq_ok.mp h
  exact validateLists_eq_ok hlists hnumeric

end Partition

/-! ### What partitioning a table does -/

namespace Catalog

/-- Groups have been added to the table. -/
structure Adds (id : TableId) (gs : List PartitionId) (groups : List PartitionGroup)
    (c c' : Catalog) : Prop where
  reachable : c.Reachable → c'.Reachable
  columns : c'.columns = c.columns
  kept : c.groups ⊆ c'.groups
  ids : gs = groups.map (·.id)
  added : ∀ g ∈ groups, g ∈ c'.groups ∧ g.table = id
  lastId_le : c.lastId ≤ c'.lastId
  new : ∀ g ∈ groups, c.lastId < g.id.n ∧ g.id.n ≤ c'.lastId
  distinct : (groups.map (·.id)).Nodup

variable {c c' c'' : Catalog} {id : TableId} {gs gs' : List PartitionId}
  {groups groups' : List PartitionGroup}

theorem Adds.nil (id : TableId) (c : Catalog) : Adds id [] [] c c where
  reachable h := h
  columns := rfl
  kept := List.Subset.refl _
  ids := rfl
  added := by simp
  lastId_le := Nat.le_refl _
  new := by simp
  distinct := List.nodup_nil

theorem Adds.append (h : Adds id gs groups c c') (h' : Adds id gs' groups' c' c'') :
    Adds id (gs ++ gs') (groups ++ groups') c c'' where
  reachable hc := h'.reachable (h.reachable hc)
  columns := h'.columns.trans h.columns
  kept := List.Subset.trans h.kept h'.kept
  ids := by rw [h.ids, h'.ids, List.map_append]
  added := by
    intro g hg
    rcases List.mem_append.mp hg with hg | hg
    · exact ⟨h'.kept (h.added g hg).1, (h.added g hg).2⟩
    · exact h'.added g hg
  lastId_le := Nat.le_trans h.lastId_le h'.lastId_le
  new := by
    intro g hg
    rcases List.mem_append.mp hg with hg | hg
    · exact ⟨(h.new g hg).1, Nat.le_trans (h.new g hg).2 h'.lastId_le⟩
    · exact ⟨Nat.lt_of_le_of_lt h.lastId_le (h'.new g hg).1, (h'.new g hg).2⟩
  distinct := by
    rw [List.map_append, List.nodup_append]
    refine ⟨h.distinct, h'.distinct, ?_⟩
    intro i hi j hj heq
    obtain ⟨g, hg, rfl⟩ := List.mem_map.mp hi
    obtain ⟨g', hg', rfl⟩ := List.mem_map.mp hj
    have hold := (h.new g hg).2
    have hnew := (h'.new g' hg').1
    rw [heq] at hold
    omega

theorem addGroup_adds {name : String} {qualifiers : List String} {unbound : Bool}
    {g : PartitionId} (h : (addGroup id name qualifiers unbound).result c = .ok g) :
    Adds id [g] [⟨g, id, name, qualifiers, unbound⟩] c
      ((addGroup id name qualifiers unbound).after c) := by
  have hreachable := Reachable.addGroup id name qualifiers unbound (c := c)
  rcases publish_cases (fun c => do
      discard <| c.table id
      return withGroup id name qualifiers unbound c) c with
    ⟨⟨e, he⟩, -⟩ | ⟨a, next, hnext, hresult, hafter⟩
  · cases he.symm.trans h
  · obtain rfl : a = g := Except.ok.inj (hresult.symm.trans h)
    obtain ⟨_, -, hpair⟩ := except_bind_eq_ok.mp hnext
    obtain ⟨rfl, rfl⟩ := Prod.mk.inj (Except.ok.inj hpair)
    change (addGroup id name qualifiers unbound).after c = _ at hafter
    rw [hafter] at hreachable ⊢
    refine ⟨hreachable, rfl, List.subset_append_left _ _, rfl, ?_, Nat.le_succ _, ?_,
      by simp⟩
    · intro g hg
      obtain rfl := List.mem_singleton.mp hg
      exact ⟨List.mem_append_right _ (List.mem_singleton_self _), rfl⟩
    · intro g hg
      obtain rfl := List.mem_singleton.mp hg
      exact ⟨Nat.lt_succ_self _, Nat.le_refl _⟩

theorem install_partitioned (hc : c.Reachable) {kind : PartitionKind} {x : Column} {u : Unit}
    (hx : x ∈ c.columns) (hgroups : ∀ g ∈ groups, g ∈ c.groups ∧ g.table = id)
    (h : (install id ⟨kind, x.id⟩ (groups.map (·.id))).result c = .ok u) :
    groups ≠ [] ∧
      ((install id ⟨kind, x.id⟩ (groups.map (·.id))).after c).Partitioned id kind x groups := by
  rcases publish_cases (fun c => do
      return ((), ← withPartitioning id ⟨kind, x.id⟩ (groups.map (·.id)) c)) c with
    ⟨⟨e, he⟩, -⟩ | ⟨_, next, hnext, -, hafter⟩
  · cases he.symm.trans h
  · obtain ⟨next', hinstalled, hpair⟩ := except_bind_eq_ok.mp hnext
    obtain ⟨-, rfl⟩ := Prod.mk.inj (Except.ok.inj hpair)
    obtain ⟨hne, ⟨y, hy, -, htable⟩, -, rfl⟩ := withPartitioning_eq_ok hinstalled
    refine ⟨fun hnil => hne (by rw [hnil]; rfl), ?_⟩
    change (install id ⟨kind, x.id⟩ (groups.map (·.id))).after c = _ at hafter
    rw [hafter]
    obtain ⟨t, ht, hid, -⟩ := hc.linked.listed y hy
    refine ⟨⟨_, List.mem_map_of_mem ht, ?_⟩, hx, ?_⟩
    · rw [if_pos (hid.trans htable)]
      exact ⟨hid.trans htable, rfl, rfl⟩
    · intro g hg
      obtain ⟨hmem, hown⟩ := hgroups g hg
      have hlisted : (groups.map (·.id)).contains g.id = true :=
        List.contains_iff_mem.mpr (List.mem_map_of_mem hg)
      exact ⟨List.mem_filter.mpr ⟨hmem, by rw [hlisted, Bool.or_true]⟩, hown⟩

end Catalog

namespace Router

open Catalog (Adds)

variable {c : Catalog} {id : TableId} {gs : List PartitionId}

theorem addGroups_adds {i : Nat} {lists : List (List String)}
    (h : (addGroups id i lists).result c = .ok gs) :
    ∃ groups, Adds id gs groups c ((addGroups id i lists).after c) ∧
      ∀ g ∈ groups, g.unbound = false ∧ g.qualifiers ∈ lists := by
  induction lists generalizing i c gs with
  | nil =>
    obtain rfl := Except.ok.inj h
    exact ⟨[], .nil id c, by simp⟩
  | cons list rest ih =>
    obtain ⟨g, hg, h, hafter⟩ := Session.bind_eq_ok h
    obtain ⟨gs', hgs, h, hafter'⟩ := Session.bind_eq_ok h
    obtain rfl := Except.ok.inj h
    obtain ⟨groups, hadds, hmade⟩ := ih hgs
    rw [addGroups, hafter, hafter']
    refine ⟨_, (Catalog.addGroup_adds hg).append hadds, ?_⟩
    intro g' hg'
    rcases List.mem_append.mp hg' with hg' | hg'
    · obtain rfl := List.mem_singleton.mp hg'
      exact ⟨rfl, by simp⟩
    · exact ⟨(hmade g' hg').1, List.mem_cons_of_mem _ (hmade g' hg').2⟩

theorem addUnbound_adds {kind : PartitionKind} (h : (addUnbound id kind).result c = .ok gs) :
    ∃ groups, Adds id gs groups c ((addUnbound id kind).after c) ∧
      (∀ g ∈ groups, g.unbound = true) ∧ (kind.needsUnbound = true → groups ≠ []) := by
  unfold addUnbound at h ⊢
  by_cases hneeds : kind.needsUnbound = true
  · simp only [hneeds, if_true] at h ⊢
    obtain ⟨g, hg, h, hafter⟩ := Session.bind_eq_ok h
    obtain rfl := Except.ok.inj h
    rw [hafter]
    exact ⟨_, Catalog.addGroup_adds hg, by simp, by simp⟩
  · simp only [hneeds] at h ⊢
    obtain rfl := Except.ok.inj h
    exact ⟨[], .nil id c, by simp, by simp⟩

/-- The groups that are made beside UNBOUND have these qualifiers. -/
def listsFor (kind : PartitionKind) (count : Nat) (qualifiers : List (List String)) :
    List (List String) :=
  if kind = .hash then List.replicate count [] else qualifiers

variable {settings : PartitionSettings} {kind : PartitionKind} {columnName : String} {count : Nat}
  {qualifiers : List (List String)}

/-- The steps of a partitioning that succeeds. -/
theorem partition_steps
    (h : (partition settings id kind columnName count qualifiers).result c = .ok gs) :
    let c₁ := (addGroups id 0 (listsFor kind count qualifiers)).after c
    let c₂ := (addUnbound id kind).after c₁
    ∃ x bound unbound, c.columnNamed id columnName = .ok x ∧
      kind.validate ⟨x.type, count, qualifiers⟩ settings = .ok () ∧
      (addGroups id 0 (listsFor kind count qualifiers)).result c = .ok bound ∧
      (addUnbound id kind).result c₁ = .ok unbound ∧
      (Catalog.install id ⟨kind, x.id⟩ (bound ++ unbound)).result c₂ = .ok () ∧
      gs = bound ++ unbound ∧
      (partition settings id kind columnName count qualifiers).after c =
        (Catalog.install id ⟨kind, x.id⟩ (bound ++ unbound)).after c₂ := by
  obtain ⟨x, hx, h, hafter⟩ := Session.lift_bind_eq_ok (x := c.columnNamed id columnName) (c := c) h
  obtain ⟨u, hvalid, h, hafter₁⟩ :=
    Session.lift_bind_eq_ok (x := kind.validate ⟨x.type, count, qualifiers⟩ settings) h
  obtain ⟨bound, hbound, h, hafter₂⟩ :=
    Session.bind_eq_ok (x := addGroups id 0 (listsFor kind count qualifiers)) h
  obtain ⟨unbound, hunbound, h, hafter₃⟩ := Session.bind_eq_ok (x := addUnbound id kind) h
  obtain ⟨_, hinstall, h, hafter₄⟩ :=
    Session.bind_eq_ok (x := Catalog.install id ⟨kind, x.id⟩ (bound ++ unbound)) h
  refine ⟨x, bound, unbound, hx, hvalid, hbound, hunbound, hinstall, (Except.ok.inj h).symm, ?_⟩
  exact hafter.trans (hafter₁.trans (hafter₂.trans (hafter₃.trans hafter₄)))

/-- Where the router partitions a table, it gives out the groups that it has made,
    and they fit the function. -/
theorem partition_eq_ok (hc : c.Reachable)
    (h : (partition settings id kind columnName count qualifiers).result c = .ok gs) :
    ((partition settings id kind columnName count qualifiers).after c).Reachable ∧
      ∃ x groups, c.columnNamed id columnName = .ok x ∧ gs = groups.map (·.id) ∧
        Partition.Fits kind x.type groups ∧
        ((partition settings id kind columnName count qualifiers).after c).Partitioned
          id kind x groups := by
  obtain ⟨x, bound, unbound, hx, hvalid, hbound, hunbound, hinstall, rfl, hafter⟩ :=
    partition_steps h
  obtain ⟨groups, hadds, hmade⟩ := addGroups_adds hbound
  obtain ⟨groups', hadds', hopen, hneeds⟩ := addUnbound_adds hunbound
  have hall := hadds.append hadds'
  have hcolumn : x ∈ c.columns := Catalog.columnNamed_eq_ok hx
  rw [hafter]
  rw [hall.ids] at hinstall ⊢
  obtain ⟨hne, hpartitioned⟩ := Catalog.install_partitioned (hall.reachable hc)
    (hall.columns ▸ hcolumn) hall.added hinstall
  have hlisted : ∀ g ∈ groups ++ groups', g.unbound = false →
      g.qualifiers ∈ listsFor kind count qualifiers := by
    intro g hg hbound
    rcases List.mem_append.mp hg with hg | hg
    · exact (hmade g hg).2
    · rw [hopen g hg] at hbound
      cases hbound
  refine ⟨.install _ _ _ (hall.reachable hc), x, groups ++ groups', hx, rfl,
    ⟨hne, ?_, ?_, ?_, hall.distinct⟩, hpartitioned⟩
  · intro hkind
    obtain ⟨g, hg⟩ := List.exists_mem_of_ne_nil _ (hneeds hkind)
    exact ⟨g, List.mem_append_right _ hg, hopen g hg⟩
  · rintro rfl g hg hbound
    exact Partition.validateRange_eq_ok hvalid g.qualifiers (hlisted g hg hbound)
  · rintro rfl hnumeric g hg hbound
    exact Partition.validateList_eq_ok hvalid hnumeric g.qualifiers (hlisted g hg hbound)

end Router

end Polystore
