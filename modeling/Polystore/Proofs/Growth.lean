import Polystore.Proofs.Groups

/-
  Polystore/Proofs/Growth.lean
  ============================
  **How a memo grows.**  A memo changes in three ways: a node is entered into a
  group, a group is opened, and a group absorbs a younger one.  Each of them keeps
  the memo well-formed and extends it, and so do merging two groups
  (`merge_grows`) and inserting a node (`insert_grows`), which are made of them.
-/

namespace Polystore

namespace Memo

variable {α : Type} {m m' : Memo α}

/-! ### Entering a node -/

/-- The memo with a new node in a group. -/
def entered (m : Memo α) (n : Node) (digest : String) (g : GroupId) : Memo α :=
  { m with
    arena := ⟨m.arena.nodes.push n⟩
    homes := m.homes.push g
    groups := m.groups.modify g.n fun group =>
      { group with members := group.members ++ [⟨m.size⟩] }
    digests := m.digests.insert digest ⟨m.size⟩
    version := m.version + 1 }

theorem enter_ends {E : Error → Prop} {n : Node} {d : String} {g : GroupId}
    (hbad : ((∀ i ∈ n.inputs, i.n < m.size) ∧ (m.size < Arena.capacity ∨ E Arena.full)) ∨
      ∀ e, E e) :
    Ends E (m.enter n d g) fun r => r = (⟨m.size⟩, m.entered n d g) ∧
      (∀ i ∈ n.inputs, i.n < m.size) ∧ m.size < Arena.capacity := by
  apply (Arena.add_ends hbad).bind
  intro r hr
  rcases hr with ⟨rfl, hinputs, hsize⟩
  exact Ends.pure ⟨rfl, hinputs, hsize⟩

section Entered

variable {n : Node} {d : String} {g : GroupId}

theorem next?_entered (h : GroupId) : (m.entered n d g).next? h = m.next? h := by
  simp only [next?, entered, Array.getElem?_modify]
  split
  · cases m.groups[h.n]? <;> rfl
  · rfl

theorem find_entered (h : GroupId) : (m.entered n d g).find h = m.find h :=
  find_congr next?_entered h

theorem groupOf_entered (hsize : m.homes.size = m.size) {id : NodeId} {h : GroupId} :
    (m.entered n d g).groupOf id = .ok h ↔
      m.groupOf id = .ok h ∨ id = ⟨m.size⟩ ∧ m.find g = h := by
  rw [groupOf_eq_ok, groupOf_eq_ok]
  simp only [find_entered]
  simp only [entered, Array.getElem?_push, hsize]
  by_cases hid : id.n = m.size
  · have hnone : m.homes[id.n]? = none := by simp [hid, hsize]
    have heq : id = ⟨m.size⟩ := by cases id; exact congrArg NodeId.mk hid
    simp [heq, ← hsize]
  · have hne : id ≠ ⟨m.size⟩ := fun h => hid (congrArg NodeId.n h)
    simp [hid, hne]

theorem members_entered (hg : m.isLive g = true) (h : GroupId) :
    (m.entered n d g).members h =
      if m.find h = g then m.members h ++ [⟨m.size⟩] else m.members h := by
  obtain ⟨hlt, -⟩ := isLive_iff.mp hg
  unfold members
  rw [find_entered]
  simp only [entered, Array.getElem?_modify]
  by_cases heq : m.find h = g
  · simp [heq, hlt]
  · have hne : g.n ≠ (m.find h).n := by
      intro hn
      exact heq (by cases hf : m.find h; cases g; simp_all)
    simp [heq, hne]

theorem entered_extends (hnew : m.digests[d]? = none) : m.Extends (m.entered n d g) where
  node _ _ h := Arena.get_push.mpr (.inl h)
  home i h hh := by
    have hlt := (Array.getElem?_eq_some_iff.mp hh).1
    simp only [entered, Array.getElem?_push, Nat.ne_of_lt hlt, if_false, hh]
  digests d' id hd := by
    have hne : d ≠ d' := by
      rintro rfl
      cases hnew.symm.trans hd
    rw [entered, getElem?_insert_of_ne hne]
    exact hd
  groups_le := by simp [entered]
  find h h' heq := by rw [find_entered, find_entered, heq]
  version_le := Nat.le_succ _
  eq_of_version h := absurd h (Nat.succ_ne_self _)

theorem WellFormed.entered (hm : m.WellFormed) (hg : m.isLive g = true) {gs : List GroupId}
    (hinputs : n.inputs.mapM m.groupOf = .ok gs) (hnew : m.digests[digestText n gs]? = none)
    (hsize : m.size < Arena.capacity) : (m.entered n (digestText n gs) g).WellFormed where
  homes_size := by simp [Memo.entered, hm.homes_size, size, Arena.size]
  size_le := by
    simp only [Memo.entered, size, Arena.size, Array.size_push]
    exact hsize
  inputs_older id k hk i hi := by
    rcases Arena.get_push.mp hk with hk | ⟨hid, rfl⟩
    · exact hm.inputs_older id k hk i hi
    · obtain ⟨h, -, hh⟩ := exists_of_forall₂_left (mapM_eq_ok.mp hinputs) i hi
      rw [hid]
      exact hm.lt_size_of_groupOf hh
  homes_lt i h hh := by
    simp only [Memo.entered, Array.getElem?_push, Array.size_modify] at hh ⊢
    split at hh
    · obtain rfl := Option.some.inj hh
      exact (isLive_iff.mp hg).1
    · exact hm.homes_lt i h hh
  mergesDown h older hnext := hm.mergesDown h older (by rwa [next?_entered] at hnext)
  mem_members_iff h id := by
    rw [groupOf_entered hm.homes_size, members_entered hg, find_entered,
      find_of_none (isLive_iff.mp hg).2]
    by_cases heq : m.find h = g
    · simp only [heq, if_true, List.mem_append, List.mem_singleton, hm.mem_members_iff, and_true]
    · simp only [heq, if_false, hm.mem_members_iff, Ne.symm heq, and_false, or_false]
  digests d id hd := by
    have hext : m.Extends (m.entered n (digestText n gs) g) := entered_extends hnew
    rcases getElem?_insert_eq_some hd with ⟨rfl, rfl⟩ | ⟨-, hd⟩
    · exact ⟨n, gs, Arena.get_push_self, rfl, hext.mapM_groupOf hm hinputs⟩
    · obtain ⟨k, hs, hk, hd, hks⟩ := hm.digests d id hd
      refine ⟨k, hs, hext.node _ _ hk, hd, ?_⟩
      rw [hext.mapM_groupOf hm hks, List.map_map]
      refine congrArg Except.ok (List.map_congr_left fun h _ => ?_)
      rw [Function.comp_apply, find_entered, find_entered, find_find hm.mergesDown]

end Entered

/-! ### Opening a group -/

section OpenGroup

variable {rows : α}

theorem next?_openGroup (g : GroupId) : (m.openGroup rows).2.next? g = m.next? g := by
  simp only [next?, openGroup, Array.getElem?_push]
  split
  · rename_i h
    simp [h]
  · rfl

theorem find_openGroup (g : GroupId) : (m.openGroup rows).2.find g = m.find g :=
  find_congr next?_openGroup g

theorem groupOf_openGroup (id : NodeId) :
    (m.openGroup rows).2.groupOf id = m.groupOf id := by
  unfold groupOf
  simp only [find_openGroup]
  rfl

theorem members_openGroup (g : GroupId) : (m.openGroup rows).2.members g = m.members g := by
  unfold members
  rw [find_openGroup]
  simp only [openGroup, Array.getElem?_push]
  split
  · rename_i h
    simp [h]
  · rfl

theorem isLive_openGroup : (m.openGroup rows).2.isLive (m.openGroup rows).1 = true := by
  simp [isLive, openGroup]

theorem WellFormed.openGroup (hm : m.WellFormed) (rows : α) :
    (m.openGroup rows).2.WellFormed where
  homes_size := hm.homes_size
  size_le := hm.size_le
  inputs_older := hm.inputs_older
  homes_lt i g h := by
    simp only [Memo.openGroup, Array.size_push]
    exact Nat.lt_succ_of_lt (hm.homes_lt i g h)
  mergesDown g older h := hm.mergesDown g older (by rwa [next?_openGroup] at h)
  mem_members_iff g id := by
    rw [members_openGroup, groupOf_openGroup, find_openGroup]
    exact hm.mem_members_iff g id
  digests d id h := by
    obtain ⟨n, gs, hn, hd, hgs⟩ := hm.digests d id h
    refine ⟨n, gs, hn, hd, ?_⟩
    rw [show (m.openGroup rows).2.groupOf = m.groupOf from funext groupOf_openGroup,
      show (m.openGroup rows).2.find = m.find from funext find_openGroup]
    exact hgs

theorem opened_extends {n : Node} {d : String} {g : GroupId} (hnew : m.digests[d]? = none) :
    m.Extends ((m.openGroup rows).2.entered n d g) where
  node := (entered_extends (m := (m.openGroup rows).2) hnew).node
  home := (entered_extends (m := (m.openGroup rows).2) hnew).home
  digests := (entered_extends (m := (m.openGroup rows).2) hnew).digests
  groups_le := by simp [entered, openGroup]
  find h h' heq := by rw [find_entered, find_entered, find_openGroup, find_openGroup, heq]
  version_le := Nat.le_succ _
  eq_of_version h := absurd h (Nat.succ_ne_self _)

end OpenGroup

/-! ### Merging groups -/

section Absorb

variable {older younger : GroupId}

theorem next?_absorb (hyounger : younger.n < m.groups.size) (g : GroupId) :
    (m.absorb older younger).next? g = if g = younger then some older else m.next? g := by
  simp only [next?, absorb, Array.getElem?_modify]
  by_cases h : g = younger
  · subst h
    rw [if_pos rfl, if_pos rfl]
    split <;> simp [hyounger]
  · have hne : younger.n ≠ g.n := fun hn => h (GroupId.eq_of_n hn.symm)
    simp only [hne, if_false, h]
    split
    · cases m.groups[g.n]? <;> rfl
    · rfl

/-- What a merge does: two live groups, the older one first. -/
structure Absorbs (m : Memo α) (older younger : GroupId) : Prop where
  older_live : m.isLive older = true
  younger_live : m.isLive younger = true
  lt : older.n < younger.n

variable (habsorbs : m.Absorbs older younger) (hdown : m.MergesDown)

include habsorbs

theorem mergesDown_absorb (hdown : m.MergesDown) : (m.absorb older younger).MergesDown := by
  intro g h hnext
  rw [next?_absorb (isLive_iff.mp habsorbs.younger_live).1] at hnext
  split at hnext
  · rename_i heq
    obtain rfl := Option.some.inj hnext
    exact heq ▸ habsorbs.lt
  · exact hdown g h hnext

theorem find_absorb (hdown : m.MergesDown) (g : GroupId) :
    (m.absorb older younger).find g = if m.find g = younger then older else m.find g := by
  obtain ⟨hyounger, hnone⟩ := isLive_iff.mp habsorbs.younger_live
  have hnext : ∀ g, (m.absorb older younger).next? g = _ := next?_absorb hyounger
  have hdown' := mergesDown_absorb habsorbs hdown
  have holder : older ≠ younger := fun h => Nat.lt_irrefl _ (h ▸ habsorbs.lt)
  induction g using mergeInduction hdown with
  | root g h =>
    rw [find_of_none h]
    by_cases hg : g = younger
    · have hsome : (m.absorb older younger).next? g = some older := by rw [hnext, if_pos hg]
      have hroot : (m.absorb older younger).next? older = none := by
        rw [hnext, if_neg holder]
        exact (isLive_iff.mp habsorbs.older_live).2
      rw [find_of_some hdown' hsome, find_of_none hroot, if_pos hg]
    · have hroot : (m.absorb older younger).next? g = none := by rw [hnext, if_neg hg, h]
      rw [find_of_none hroot, if_neg hg]
  | merged g h hg ih =>
    have hne : g ≠ younger := by
      rintro rfl
      rw [hnone] at hg
      cases hg
    have hsome : (m.absorb older younger).next? g = some h := by rw [hnext, if_neg hne, hg]
    rw [find_of_some hdown' hsome, ih, find_of_some hdown hg]

theorem groupOf_absorb (hdown : m.MergesDown) {id : NodeId} {g : GroupId} :
    (m.absorb older younger).groupOf id = .ok g ↔
      ∃ h, m.groupOf id = .ok h ∧ (if h = younger then older else h) = g := by
  rw [groupOf_eq_ok]
  simp only [groupOf_eq_ok, find_absorb habsorbs hdown]
  constructor
  · rintro ⟨home, hhome, heq⟩
    exact ⟨m.find home, ⟨home, hhome, rfl⟩, heq⟩
  · rintro ⟨h, ⟨home, hhome, rfl⟩, heq⟩
    exact ⟨home, hhome, heq⟩

theorem members_absorb (hdown : m.MergesDown) (g : GroupId) :
    (m.absorb older younger).members g =
      if m.find g = older ∨ m.find g = younger then m.members older ++ m.members younger
      else m.members g := by
  obtain ⟨holder, hnone⟩ := isLive_iff.mp habsorbs.older_live
  have hne : younger.n ≠ older.n := Ne.symm (Nat.ne_of_lt habsorbs.lt)
  have hne' : older ≠ younger := fun h => hne (congrArg GroupId.n h.symm)
  have hmerged : (((m.absorb older younger).groups[older.n]?).map (·.members)).getD [] =
      m.members older ++ m.members younger := by
    simp only [absorb, Array.getElem?_modify, hne, if_false, if_true]
    rw [Array.getElem?_eq_getElem holder, members.eq_def m older, find_of_none hnone,
      Array.getElem?_eq_getElem holder]
    rfl
  rw [members, find_absorb habsorbs hdown]
  by_cases hy : m.find g = younger
  · simp only [hy, if_true, or_true]
    exact hmerged
  · by_cases ho : m.find g = older
    · simp only [ho, hne', if_false, true_or, if_true]
      exact hmerged
    · simp only [hy, ho, if_false, or_self]
      have hn : younger.n ≠ (m.find g).n := fun h => hy (GroupId.eq_of_n h.symm)
      have hn' : older.n ≠ (m.find g).n := fun h => ho (GroupId.eq_of_n h.symm)
      simp only [absorb, Array.getElem?_modify, hn, hn', if_false, members]

theorem absorb_extends (hdown : m.MergesDown) : m.Extends (m.absorb older younger) where
  node _ _ h := h
  home _ _ h := h
  digests _ _ h := h
  groups_le := by simp [absorb]
  find g h heq := by rw [find_absorb habsorbs hdown, find_absorb habsorbs hdown, heq]
  version_le := Nat.le_succ _
  eq_of_version h := absurd h (Nat.succ_ne_self _)

theorem WellFormed.absorb (hm : m.WellFormed) : (m.absorb older younger).WellFormed where
  homes_size := hm.homes_size
  size_le := hm.size_le
  inputs_older := hm.inputs_older
  homes_lt i g h := by
    simp only [Memo.absorb, Array.size_modify]
    exact hm.homes_lt i g h
  mergesDown := mergesDown_absorb habsorbs hm.mergesDown
  mem_members_iff g id := by
    have hdown := hm.mergesDown
    have hne : older ≠ younger := fun h => Nat.lt_irrefl _ (h ▸ habsorbs.lt)
    rw [members_absorb habsorbs hdown, groupOf_absorb habsorbs hdown, find_absorb habsorbs hdown]
    have hfind : ∀ {g}, m.isLive g = true → m.find g = g :=
      fun hg => find_of_none (isLive_iff.mp hg).2
    by_cases hg : m.find g = older ∨ m.find g = younger
    · -- both groups are now the older one
      have hlast : (if m.find g = younger then older else m.find g) = older := by
        rcases hg with hg | hg
        · rw [hg, if_neg hne]
        · rw [if_pos hg]
      rw [if_pos hg, hlast, List.mem_append, hm.mem_members_iff, hm.mem_members_iff,
        hfind habsorbs.older_live, hfind habsorbs.younger_live]
      constructor
      · rintro (h | h)
        · exact ⟨older, h, if_neg hne⟩
        · exact ⟨younger, h, if_pos rfl⟩
      · rintro ⟨h, hid, heq⟩
        by_cases hy : h = younger
        · exact .inr (hy ▸ hid)
        · rw [if_neg hy] at heq
          exact .inl (heq ▸ hid)
    · obtain ⟨ho, hy⟩ := not_or.mp hg
      rw [if_neg hg, if_neg hy, hm.mem_members_iff]
      constructor
      · intro h
        exact ⟨_, h, if_neg hy⟩
      · rintro ⟨h, hid, heq⟩
        by_cases hyh : h = younger
        · rw [if_pos hyh] at heq
          exact absurd heq.symm ho
        · rw [if_neg hyh] at heq
          exact heq ▸ hid
  digests d id h := by
    have hext := absorb_extends habsorbs hm.mergesDown
    obtain ⟨n, gs, hn, hd, hgs⟩ := hm.digests d id h
    refine ⟨n, gs, hn, hd, ?_⟩
    rw [hext.mapM_groupOf hm hgs, List.map_map]
    refine congrArg Except.ok (List.map_congr_left fun g _ => ?_)
    exact hext.find _ _ (find_find hm.mergesDown g)

end Absorb

theorem merge_eq (m : Memo α) (a b : GroupId) : m.merge a b =
    if m.find a = m.find b then m
    else if (m.find a).n < (m.find b).n then m.absorb (m.find a) (m.find b)
    else m.absorb (m.find b) (m.find a) := rfl

/-- Merging does nothing to one group, and of two groups one absorbs the other. -/
theorem merge_cases {P : Memo α → Prop} (hm : m.WellFormed) {a b : GroupId}
    (ha : a.n < m.groups.size) (hb : b.n < m.groups.size) (same : m.find a = m.find b → P m)
    (absorbs : ∀ older younger, m.Absorbs older younger →
      older = m.find a ∧ younger = m.find b ∨ older = m.find b ∧ younger = m.find a →
      P (m.absorb older younger)) : P (m.merge a b) := by
  have hdown := hm.mergesDown
  rw [merge_eq]
  split
  · exact same ‹_›
  · rename_i hne
    split
    · rename_i hlt
      exact absorbs _ _ ⟨isLive_find hdown ha, isLive_find hdown hb, hlt⟩ (.inl ⟨rfl, rfl⟩)
    · have hn : (m.find a).n ≠ (m.find b).n := fun h => hne (GroupId.eq_of_n h)
      exact absorbs _ _ ⟨isLive_find hdown hb, isLive_find hdown ha, by omega⟩ (.inr ⟨rfl, rfl⟩)

theorem merge_grows (hm : m.WellFormed) {a b : GroupId} (ha : a.n < m.groups.size)
    (hb : b.n < m.groups.size) :
    (m.merge a b).WellFormed ∧ m.Extends (m.merge a b) ∧
      (m.merge a b).find a = (m.merge a b).find b := by
  have hdown := hm.mergesDown
  refine merge_cases (P := fun m' => m'.WellFormed ∧ m.Extends m' ∧ m'.find a = m'.find b) hm ha hb
    (fun heq => ⟨hm, .refl m, heq⟩) fun older younger habsorbs hgroups => ?_
  refine ⟨hm.absorb habsorbs, absorb_extends habsorbs hdown, ?_⟩
  rw [find_absorb habsorbs hdown, find_absorb habsorbs hdown]
  rcases hgroups with ⟨rfl, rfl⟩ | ⟨rfl, rfl⟩
  · rw [if_pos rfl, ite_eq_right_iff]
    exact fun _ => rfl
  · rw [if_pos rfl, eq_comm, ite_eq_right_iff]
    exact fun _ => rfl

theorem node_merge (a b : GroupId) (id : NodeId) : (m.merge a b).node id = m.node id := by
  rw [merge_eq]
  split
  · rfl
  · split <;> rfl

theorem size_merge (a b : GroupId) : (m.merge a b).size = m.size := by
  rw [merge_eq]
  split
  · rfl
  · split <;> rfl

theorem digests_merge (a b : GroupId) : (m.merge a b).digests = m.digests := by
  rw [merge_eq]
  split
  · rfl
  · split <;> rfl

/-- After a merge a node is in its old group, unless this is one of the two. -/
theorem groupOf_merge (hm : m.WellFormed) {a b : GroupId} (ha : a.n < m.groups.size)
    (hb : b.n < m.groups.size) {id : NodeId} {h : GroupId}
    (hid : (m.merge a b).groupOf id = .ok h) : ∃ g, m.groupOf id = .ok g ∧
      (h = g ∨ h = m.find a ∧ g = m.find b ∨ h = m.find b ∧ g = m.find a) := by
  revert hid
  refine merge_cases (P := fun m' => m'.groupOf id = .ok h → _) hm ha hb
    (fun _ hid => ⟨h, hid, .inl rfl⟩) fun older younger habsorbs hgroups hid => ?_
  obtain ⟨g, hg, heq⟩ := (groupOf_absorb habsorbs hm.mergesDown).mp hid
  refine ⟨g, hg, ?_⟩
  by_cases hyounger : g = younger
  · rw [if_pos hyounger] at heq
    rcases hgroups with ⟨ho, hy⟩ | ⟨ho, hy⟩
    · exact .inr (.inl ⟨heq.symm.trans ho, hyounger.trans hy⟩)
    · exact .inr (.inr ⟨heq.symm.trans ho, hyounger.trans hy⟩)
  · rw [if_neg hyounger] at heq
    exact .inl heq.symm

/-! ### Inserting a node -/

/-- What inserting a node leads to, by whether its digest is known and whether a
    group is given. -/
inductive Inserted (m : Memo α) (n : Node) (inputs : List GroupId) :
    Option GroupId → NodeId → Memo α → Prop
  | known {id : NodeId} (hknown : m.digests[digestText n inputs]? = some id) :
    Inserted m n inputs none id m
  | merged {id : NodeId} {g current : GroupId}
    (hknown : m.digests[digestText n inputs]? = some id) (hcurrent : m.groupOf id = .ok current) :
    Inserted m n inputs (some g) id (m.merge current (m.find g))
  | joined {g : GroupId} (hsize : m.size < Arena.capacity)
    (hnew : m.digests[digestText n inputs]? = none) :
    Inserted m n inputs (some g) ⟨m.size⟩ (m.entered n (digestText n inputs) (m.find g))
  | opened {rows : α} (hsize : m.size < Arena.capacity)
    (hnew : m.digests[digestText n inputs]? = none) :
    Inserted m n inputs none ⟨m.size⟩
      ((m.openGroup rows).2.entered n (digestText n inputs) (m.openGroup rows).1)

/-- Inserting a node whose inputs are in the memo fails only when the memo is
    full. -/
theorem insert_ends [Quantity α] {E : Error → Prop} (hm : m.WellFormed) {n : Node}
    {target : Option GroupId}
    (hbad : ((∀ i ∈ n.inputs, i.n < m.size) ∧ (m.size < Arena.capacity ∨ E Arena.full)) ∨
      ∀ e, E e) :
    Ends E (m.insert n target) fun r => ∃ gs, n.inputs.mapM m.groupOf = .ok gs ∧
      m.Inserted n gs target r.1 r.2 := by
  refine Ends.bind (Q := fun d => m.digest n = .ok d) ?_ fun d hd => ?_
  · cases hd : m.digest n with
    | ok d => rfl
    | error e =>
      rcases hbad with ⟨hinputs, -⟩ | hbad
      · obtain ⟨gs, hgs⟩ := mapM_groupOf_of_lt hm hinputs
        rw [digest_eq_ok.mpr ⟨gs, hgs, rfl⟩] at hd
        cases hd
      · exact hbad e
  obtain ⟨gs, hgs, rfl⟩ := digest_eq_ok.mp hd
  cases hknown : m.digests[digestText n gs]? with
  | some id =>
    cases target with
    | none => exact Ends.pure ⟨gs, hgs, .known hknown⟩
    | some g =>
      obtain ⟨k, -, hk, -⟩ := hm.digests _ _ hknown
      obtain ⟨current, hcurrent⟩ := hm.exists_groupOf (Arena.lt_size_of_get hk)
      refine Ends.after hcurrent ?_
      exact Ends.pure ⟨gs, hgs, .merged hknown hcurrent⟩
  | none =>
    cases target with
    | some g =>
      apply (enter_ends hbad).imp
      intro r hr
      rcases hr with ⟨rfl, -, hsize⟩
      exact ⟨gs, hgs, .joined hsize hknown⟩
    | none =>
      refine Ends.after hgs ?_
      let opened := m.openGroup (estimateRows n (gs.map m.rows) m.defaultRows)
      have henter : Ends E (opened.2.enter n (digestText n gs) opened.1) _ := enter_ends hbad
      apply henter.imp
      intro r hr
      rcases hr with ⟨rfl, -, hsize⟩
      exact ⟨gs, hgs, .opened hsize hknown⟩

/-- What was inserted is found under the digest it was inserted with. -/
theorem Inserted.digest_known {n : Node} {gs : List GroupId} {target : Option GroupId} {id : NodeId}
    (h : m.Inserted n gs target id m') : m'.digests[digestText n gs]? = some id := by
  cases h with
  | known hknown => exact hknown
  | merged hknown _ =>
    rw [digests_merge]
    exact hknown
  | joined _ => exact Std.TreeMap.getElem?_insert_self
  | opened _ => exact Std.TreeMap.getElem?_insert_self

theorem Inserted.size_le {n : Node} {gs : List GroupId} {target : Option GroupId} {id : NodeId}
    (h : m.Inserted n gs target id m') : m'.size ≤ m.size + 1 := by
  cases h with
  | known _ => exact Nat.le_succ _
  | merged _ _ =>
    rw [size_merge]
    exact Nat.le_succ _
  | joined _ _ => simp [entered, size, Arena.size]
  | opened _ _ => simp [entered, openGroup, size, Arena.size]

/-- A memo after a node has been inserted. -/
structure Grown (m : Memo α) (n : Node) (target : Option GroupId) (id : NodeId)
    (m' : Memo α) : Prop where
  wellFormed : m'.WellFormed
  grows : m.Extends m'
  /-- Only the node itself may be new. -/
  node_cases : ∀ i k, m'.node i = .ok k → m.node i = .ok k ∨ k = n
  keeps : m'.Keeps n id
  /-- It is known by the groups that its inputs were in. -/
  known : ∃ gs, n.inputs.mapM m.groupOf = .ok gs ∧ m'.digests[digestText n gs]? = some id
  /-- It is in the group that was given. -/
  groupOf : ∀ g, target = some g → m'.groupOf id = .ok (m'.find g)

theorem Inserted.grown (hm : m.WellFormed) {n : Node} {inputs : List GroupId}
    {target : Option GroupId} {id : NodeId} (h : m.Inserted n inputs target id m')
    (hinputs : n.inputs.mapM m.groupOf = .ok inputs)
    (htarget : ∀ g, target = some g → g.n < m.groups.size) : m.Grown n target id m' := by
  have hkeeps : ∀ {m' : Memo α}, m.Extends m' → m'.node id = .ok n → m'.Keeps n id :=
    fun hext hn => ⟨n, inputs, inputs, hn, rfl, hext.mapM_groupOf hm hinputs,
      hext.mapM_groupOf hm hinputs⟩
  have hfound := h.digest_known
  cases h with
  | known hknown =>
    exact ⟨hm, .refl m, fun _ _ h => .inl h, keeps_of_digest hm hinputs hknown,
      ⟨inputs, hinputs, hfound⟩, by simp⟩
  | merged hknown hcurrent =>
    rename_i g current
    have hg : (m.find g).n < m.groups.size :=
      Nat.lt_of_le_of_lt (find_le hm.mergesDown g) (htarget g rfl)
    obtain ⟨hm', hext, hsame⟩ := merge_grows hm (hm.groupOf_lt hcurrent) hg
    refine ⟨hm', hext, ?_, hext.keeps hm (keeps_of_digest hm hinputs hknown),
      ⟨inputs, hinputs, hfound⟩, ?_⟩
    · intro i k hk
      rw [node_merge] at hk
      exact .inl hk
    · rintro _ ⟨⟩
      rw [hext.groupOf hm hcurrent, hsame]
      exact congrArg Except.ok (hext.find _ _ (find_find hm.mergesDown g))
  | @joined g hsize hnew =>
    have hlive := isLive_find hm.mergesDown (htarget g rfl)
    refine ⟨hm.entered hlive hinputs hnew hsize, entered_extends hnew, ?_,
      hkeeps (entered_extends hnew) Arena.get_push_self, ⟨inputs, hinputs, hfound⟩, ?_⟩
    · intro i k hk
      exact (Arena.get_push.mp hk).imp_right And.right
    · rintro _ ⟨⟩
      refine (groupOf_entered hm.homes_size).mpr (.inr ⟨rfl, ?_⟩)
      rw [find_entered, find_find hm.mergesDown]
  | @opened rows hsize hnew =>
    have hinputs' : n.inputs.mapM (m.openGroup rows).2.groupOf = .ok inputs := by
      rw [show (m.openGroup rows).2.groupOf = m.groupOf from funext groupOf_openGroup]
      exact hinputs
    refine ⟨(hm.openGroup rows).entered isLive_openGroup hinputs' hnew hsize,
      opened_extends hnew, ?_, hkeeps (opened_extends hnew) Arena.get_push_self,
      ⟨inputs, hinputs, hfound⟩, by simp⟩
    intro i k hk
    exact (Arena.get_push.mp hk).imp_right And.right

theorem insert_grows [Quantity α] {E : Error → Prop} (hm : m.WellFormed) {n : Node}
    {target : Option GroupId}
    (hbad : ((∀ i ∈ n.inputs, i.n < m.size) ∧ (m.size < Arena.capacity ∨ E Arena.full)) ∨
      ∀ e, E e)
    (htarget : ∀ g, target = some g → g.n < m.groups.size) :
    Ends E (m.insert n target) fun r => m.Grown n target r.1 r.2 :=
  (insert_ends hm hbad).imp fun _ ⟨_, hgs, h⟩ => h.grown hm hgs htarget

end Memo

end Polystore
