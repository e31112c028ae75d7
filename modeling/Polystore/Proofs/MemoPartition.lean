import Polystore.Proofs.ExactCosts

/-
  Polystore/Proofs/MemoPartition.lean
  ===================================
  **The groups of a memo are a partition of its nodes.**  A group keeps its own
  list of members (`Memo.listed`).  Three changes make up every call: a group is
  opened, a node is entered, and a group absorbs a younger one.  Under each of
  them no node is listed twice and the lists of absorbed groups stay empty
  (`Memo.Tidy`), so in every memo that comes about the lists together are the
  nodes, each of them once (`Memo.Partitioned`).
-/

namespace Polystore

namespace Memo

variable {α : Type} {m m' : Memo α}

/-! ### Lists of members -/

/-- The groups that have been handed out. -/
def groupIds (m : Memo α) : List GroupId := (List.range m.groups.size).map .mk

theorem mem_groupIds {g : GroupId} : g ∈ m.groupIds ↔ g.n < m.groups.size := by
  unfold groupIds
  rw [List.mem_map]
  constructor
  · rintro ⟨k, hk, rfl⟩
    exact List.mem_range.mp hk
  · intro h
    exact ⟨g.n, List.mem_range.mpr h, rfl⟩

theorem groupIds_nodup : m.groupIds.Nodup :=
  List.nodup_range.map fun _ _ h => congrArg GroupId.n h

/-- A group's own list, whether or not it has been merged. -/
def listed (m : Memo α) (g : GroupId) : List NodeId := (m.groups[g.n]?.map (·.members)).getD []

theorem listed_of_live {g : GroupId} (h : m.isLive g = true) : m.listed g = m.members g := by
  rw [members, find_of_none (isLive_iff.mp h).2]
  rfl

section Changes

variable {n : Node} {d : String} {g h older younger : GroupId} {rows : α}

theorem listed_entered (hg : g.n < m.groups.size) :
    (m.entered n d g).listed h = if h = g then m.listed h ++ [⟨m.size⟩] else m.listed h := by
  unfold listed
  simp only [entered, Array.getElem?_modify]
  by_cases heq : h = g
  · simp [heq, hg]
  · have hne : g.n ≠ h.n := fun hn => heq (GroupId.eq_of_n hn.symm)
    rw [if_neg hne, if_neg heq]

theorem isLive_entered : (m.entered n d g).isLive h = m.isLive h := by
  rw [Bool.eq_iff_iff, isLive_iff, isLive_iff, next?_entered]
  simp only [entered, Array.size_modify]

theorem listed_openGroup : (m.openGroup rows).2.listed h = m.listed h := by
  unfold listed
  simp only [openGroup, Array.getElem?_push]
  split
  · rename_i heq
    simp [heq]
  · rfl

theorem isLive_of_openGroup (hlive : (m.openGroup rows).2.isLive h = true)
    (hne : h ≠ (m.openGroup rows).1) : m.isLive h = true := by
  obtain ⟨hlt, hnone⟩ := isLive_iff.mp hlive
  rw [next?_openGroup] at hnone
  refine isLive_iff.mpr ⟨?_, hnone⟩
  have hn : h.n ≠ m.groups.size := fun hn => hne (GroupId.eq_of_n hn)
  simp only [openGroup, Array.size_push] at hlt
  omega

theorem listed_absorb (habsorbs : m.Absorbs older younger) :
    (m.absorb older younger).listed h = if h = younger then []
      else if h = older then m.listed older ++ m.listed younger else m.listed h := by
  have holder := (isLive_iff.mp habsorbs.older_live).1
  have hyounger := (isLive_iff.mp habsorbs.younger_live).1
  have hne : younger.n ≠ older.n := Ne.symm (Nat.ne_of_lt habsorbs.lt)
  rw [listed_of_live habsorbs.younger_live]
  unfold listed
  simp only [absorb, Array.getElem?_modify]
  by_cases hy : h = younger
  · simp [hy, hne.symm, hyounger]
  · have hn : younger.n ≠ h.n := fun hn => hy (GroupId.eq_of_n hn.symm)
    rw [if_neg hn, if_neg hy]
    by_cases ho : h = older
    · simp [ho, holder]
    · have hn : older.n ≠ h.n := fun hn => ho (GroupId.eq_of_n hn.symm)
      rw [if_neg hn, if_neg ho]

theorem isLive_absorb (habsorbs : m.Absorbs older younger) :
    (m.absorb older younger).isLive h = true ↔ m.isLive h = true ∧ h ≠ younger := by
  have hyounger := (isLive_iff.mp habsorbs.younger_live).1
  rw [isLive_iff, isLive_iff, next?_absorb hyounger]
  simp only [absorb, Array.size_modify]
  by_cases hy : h = younger
  · simp [hy]
  · simp [hy]

end Changes

/-! ### Tidy lists -/

/-- No list has a node twice, absorbed groups list none, and live groups list some,
    apart from those that were just opened. -/
structure Tidy (m : Memo α) (opened : List GroupId) : Prop where
  nodup : ∀ g, (m.listed g).Nodup
  absorbed : ∀ g, m.isLive g = false → m.listed g = []
  peopled : ∀ g, m.isLive g = true → g ∉ opened → m.listed g ≠ []
  /-- So groups never run out before nodes do. -/
  groups_le : m.groups.size ≤ m.size + opened.length

theorem WellFormed.mem_listed_iff (hm : m.WellFormed) {opened : List GroupId}
    (ht : m.Tidy opened) {g : GroupId} {id : NodeId} :
    id ∈ m.listed g ↔ m.groupOf id = .ok g := by
  cases hlive : m.isLive g with
  | true =>
    rw [listed_of_live hlive, hm.mem_members_iff, find_of_none (isLive_iff.mp hlive).2]
  | false =>
    rw [ht.absorbed g hlive]
    constructor
    · intro h
      cases h
    · intro h
      rw [hm.isLive_of_groupOf h] at hlive
      cases hlive

namespace Tidy

variable {opened : List GroupId}

theorem empty (rows : α) : Tidy ({ defaultRows := rows } : Memo α) [] where
  nodup g := by simp [listed]
  absorbed g _ := by simp [listed]
  peopled g h := by simp [isLive] at h
  groups_le := Nat.le_refl _

theorem openGroup (ht : m.Tidy []) (rows : α) :
    (m.openGroup rows).2.Tidy [(m.openGroup rows).1] where
  nodup g := by
    rw [listed_openGroup]
    exact ht.nodup g
  absorbed g h := by
    rw [listed_openGroup]
    apply ht.absorbed
    rw [Bool.eq_false_iff] at h ⊢
    intro hlive
    obtain ⟨hlt, hnone⟩ := isLive_iff.mp hlive
    refine h (isLive_iff.mpr ⟨?_, ?_⟩)
    · simp only [Memo.openGroup, Array.size_push]
      exact Nat.lt_succ_of_lt hlt
    · rw [next?_openGroup, hnone]
  peopled g h hg := by
    rw [listed_openGroup]
    exact ht.peopled g (isLive_of_openGroup h (List.ne_of_not_mem_cons hg)) List.not_mem_nil
  groups_le := by
    have hle := ht.groups_le
    simp only [Memo.openGroup, Array.size_push, List.length_singleton, List.length_nil] at hle ⊢
    exact Nat.succ_le_succ hle

theorem entered (hm : m.WellFormed) (ht : m.Tidy opened) {n : Node} {d : String} {g : GroupId}
    (hg : m.isLive g = true) (hopened : ∀ h ∈ opened, h = g) (hle : opened.length ≤ 1) :
    (m.entered n d g).Tidy [] where
  nodup h := by
    rw [listed_entered (isLive_iff.mp hg).1]
    split
    · refine List.Nodup.append (ht.nodup h) (List.nodup_singleton _) ?_
      rw [List.disjoint_singleton]
      intro hmem
      exact Nat.lt_irrefl _ (hm.lt_size_of_groupOf ((hm.mem_listed_iff ht).mp hmem))
    · exact ht.nodup h
  absorbed h hlive := by
    rw [isLive_entered] at hlive
    have hne : h ≠ g := by
      rintro rfl
      rw [hg] at hlive
      cases hlive
    rw [listed_entered (isLive_iff.mp hg).1, if_neg hne]
    exact ht.absorbed h hlive
  peopled h hlive _ := by
    rw [isLive_entered] at hlive
    rw [listed_entered (isLive_iff.mp hg).1]
    split
    · simp
    · rename_i hne
      exact ht.peopled h hlive fun hmem => hne (hopened h hmem)
  groups_le := by
    have hgroups := ht.groups_le
    simp only [Memo.entered, size, Arena.size, Array.size_push, Array.size_modify,
      List.length_nil] at hgroups ⊢
    omega

theorem absorb (hm : m.WellFormed) (ht : m.Tidy []) {older younger : GroupId}
    (habsorbs : m.Absorbs older younger) : (m.absorb older younger).Tidy [] where
  nodup h := by
    rw [listed_absorb habsorbs]
    split
    · exact List.nodup_nil
    · split
      · refine List.Nodup.append (ht.nodup _) (ht.nodup _) ?_
        intro id holder hyounger
        rw [hm.mem_listed_iff ht] at holder hyounger
        have heq : older = younger := Except.ok.inj (holder.symm.trans hyounger)
        exact Nat.lt_irrefl _ (heq ▸ habsorbs.lt)
      · exact ht.nodup h
  absorbed h hlive := by
    rw [← Bool.not_eq_true, isLive_absorb habsorbs] at hlive
    rw [listed_absorb habsorbs]
    split
    · rfl
    · rename_i hy
      have hdead : m.isLive h = false := by
        rw [← Bool.not_eq_true]
        exact fun h => hlive ⟨h, hy⟩
      have ho : h ≠ older := by
        rintro rfl
        rw [habsorbs.older_live] at hdead
        cases hdead
      rw [if_neg ho]
      exact ht.absorbed h hdead
  peopled h hlive _ := by
    obtain ⟨hlive, hy⟩ := (isLive_absorb habsorbs).mp hlive
    have hsome : ∀ g, m.isLive g = true → m.listed g ≠ [] :=
      fun g hg => ht.peopled g hg List.not_mem_nil
    rw [listed_absorb habsorbs, if_neg hy]
    split
    · exact fun hnil => hsome older habsorbs.older_live (List.append_eq_nil_iff.mp hnil).1
    · exact hsome h hlive
  groups_le := by
    simp only [Memo.absorb, Array.size_modify]
    exact ht.groups_le

theorem merge (hm : m.WellFormed) (ht : m.Tidy []) {a b : GroupId} (ha : a.n < m.groups.size)
    (hb : b.n < m.groups.size) : (m.merge a b).Tidy [] :=
  merge_cases (P := fun m' => m'.Tidy []) hm ha hb (fun _ => ht)
    fun _ _ habsorbs _ => ht.absorb hm habsorbs

theorem inserted (hm : m.WellFormed) (ht : m.Tidy []) {n : Node} {gs : List GroupId}
    {target : Option GroupId} {id : NodeId} (h : m.Inserted n gs target id m')
    (htarget : ∀ g, target = some g → g.n < m.groups.size) : m'.Tidy [] := by
  have hdown := hm.mergesDown
  cases h with
  | known _ => exact ht
  | @merged _ g _ _ hcurrent =>
    have hg := Nat.lt_of_le_of_lt (find_le hdown g) (htarget g rfl)
    exact ht.merge hm (hm.groupOf_lt hcurrent) hg
  | @joined g _ =>
    refine ht.entered hm (isLive_find hdown (htarget g rfl)) ?_ (Nat.zero_le _)
    intro h hmem
    cases hmem
  | @opened rows _ =>
    refine (ht.openGroup rows).entered (hm.openGroup rows) isLive_openGroup ?_ (Nat.le_refl _)
    intro h hmem
    exact List.mem_singleton.mp hmem

end Tidy

theorem Reachable.tidy [Quantity α] (h : m.Reachable) : m.Tidy [] := by
  induction h with
  | empty rows => exact .empty rows
  | @insert m m' n target id h htarget hinsert ih =>
    have hends : Ends (fun _ => True) (m.insert n target) _ :=
      insert_ends h.wellFormed (.inr fun _ => trivial)
    obtain ⟨gs, -, hinserted⟩ := hends.result hinsert
    exact ih.inserted h.wellFormed hinserted htarget
  | merge h ha hb ih => exact ih.merge h.wellFormed ha hb

/-! ### The partition -/

/-- The groups of a memo partition its nodes. -/
structure Partitioned (m : Memo α) : Prop where
  /-- Each node is listed once over all lists. -/
  once : (m.groupIds.flatMap m.listed).Perm m.ids
  /-- It is listed in its group, which is live. -/
  home : ∀ id ∈ m.ids, ∃ g, m.groupOf id = .ok g ∧ m.isLive g = true ∧ id ∈ m.listed g
  /-- What has been absorbed lists nothing. -/
  absorbed : ∀ g ∈ m.groupIds, m.isLive g = false → m.listed g = []
  /-- Each merge leads to an older group. -/
  older : ∀ g next, m.next? g = some next → next.n < g.n
  /-- So following merges ends, at a live group. -/
  ends : ∀ g ∈ m.groupIds, m.isLive (m.find g) = true ∧
    Relation.ReflTransGen (fun g next => m.next? g = some next) g (m.find g)
  peopled : ∀ g, m.isLive g = true → m.listed g ≠ []
  inputs : ∀ id n, m.node id = .ok n → ∀ i ∈ n.inputs, i.n < id.n

theorem reflTransGen_find (hdown : m.MergesDown) (g : GroupId) :
    Relation.ReflTransGen (fun g next => m.next? g = some next) g (m.find g) := by
  induction g using mergeInduction hdown with
  | root g h =>
    rw [find_of_none h]
  | merged g older h ih =>
    rw [find_of_some hdown h]
    exact .head h ih

theorem mem_ids {id : NodeId} : id ∈ m.ids ↔ id.n < m.size := by
  change id ∈ (List.range m.size).map NodeId.mk ↔ _
  rw [List.mem_map]
  constructor
  · rintro ⟨k, hk, rfl⟩
    exact List.mem_range.mp hk
  · intro h
    exact ⟨id.n, List.mem_range.mpr h, rfl⟩

theorem ids_nodup : m.ids.Nodup := List.nodup_range.map fun _ _ h => congrArg NodeId.n h

theorem WellFormed.partitioned (hm : m.WellFormed) (ht : m.Tidy []) : m.Partitioned where
  once := by
    have hlists : (m.groupIds.flatMap m.listed).Nodup := by
      refine List.nodup_flatMap.mpr ⟨fun g _ => ht.nodup g, ?_⟩
      refine groupIds_nodup.imp fun {g h} hne id hg hh => hne ?_
      rw [hm.mem_listed_iff ht] at hg hh
      exact Except.ok.inj (hg.symm.trans hh)
    refine (List.perm_ext_iff_of_nodup hlists ids_nodup).mpr fun id => ?_
    rw [List.mem_flatMap, mem_ids]
    constructor
    · rintro ⟨g, -, hid⟩
      exact hm.lt_size_of_groupOf ((hm.mem_listed_iff ht).mp hid)
    · intro hlt
      obtain ⟨g, hg⟩ := hm.exists_groupOf hlt
      exact ⟨g, mem_groupIds.mpr (hm.groupOf_lt hg), (hm.mem_listed_iff ht).mpr hg⟩
  home id hid := by
    obtain ⟨g, hg⟩ := hm.exists_groupOf (mem_ids.mp hid)
    exact ⟨g, hg, hm.isLive_of_groupOf hg, (hm.mem_listed_iff ht).mpr hg⟩
  absorbed g _ h := ht.absorbed g h
  older := hm.mergesDown
  ends g hg := ⟨isLive_find hm.mergesDown (mem_groupIds.mp hg), reflTransGen_find hm.mergesDown g⟩
  peopled g h := ht.peopled g h List.not_mem_nil
  inputs := hm.inputs_older

end Memo

end Polystore
