import Polystore.Optimizer.Memo
import Polystore.Proofs.Arenas

/-
  Polystore/Proofs/Groups.lean
  ============================
  **Groups of a memo.**  Following merges from a group ends at a group that has
  not been merged, because merges lead to older groups (`find_find`).  A
  well-formed memo (`Memo.WellFormed`) lists each node exactly in the group in
  which it is found.  A memo extends another one (`Memo.Extends`) when it has its
  nodes and keeps together what was in one group.
-/

namespace Polystore

theorem GroupId.eq_of_n {g h : GroupId} (hn : g.n = h.n) : g = h := by
  cases g
  cases h
  exact congrArg mk hn

section

variable {κ β : Type} {cmp : κ → κ → Ordering} [Std.TransCmp cmp] [Std.LawfulEqCmp cmp]
  {table : Std.TreeMap κ β cmp} {k a : κ} {v b : β}

theorem getElem?_insert_of_ne (hne : k ≠ a) : (table.insert k v)[a]? = table[a]? := by
  rw [Std.TreeMap.getElem?_insert, if_neg fun heq => hne (Std.LawfulEqCmp.eq_of_compare heq)]

/-- What is found in a table after an entry. -/
theorem getElem?_insert_eq_some (h : (table.insert k v)[a]? = some b) :
    a = k ∧ b = v ∨ a ≠ k ∧ table[a]? = some b := by
  by_cases heq : k = a
  · subst heq
    rw [Std.TreeMap.getElem?_insert_self] at h
    exact .inl ⟨rfl, (Option.some.inj h).symm⟩
  · rw [getElem?_insert_of_ne heq] at h
    exact .inr ⟨fun h => heq h.symm, h⟩

end

namespace Memo

variable {α : Type} {m m' : Memo α}

/-! ### Following merges -/

/-- The group into which a group has been merged. -/
def next? (m : Memo α) (g : GroupId) : Option GroupId := m.groups[g.n]?.bind (·.mergedInto)

/-- Merges lead to older groups. -/
def MergesDown (m : Memo α) : Prop := ∀ g older, m.next? g = some older → older.n < g.n

theorem follow_succ (m : Memo α) (steps : Nat) (g : GroupId) :
    m.follow (steps + 1) g = match m.next? g with
      | some older => m.follow steps older
      | none => g := rfl

theorem follow_of_none {g : GroupId} (h : m.next? g = none) (steps : Nat) :
    m.follow steps g = g := by
  cases steps with
  | zero => rfl
  | succ steps => rw [follow_succ, h]

/-- A group's number bounds the merges to follow. -/
theorem follow_eq_find (hdown : m.MergesDown) {steps : Nat} {g : GroupId} (h : g.n ≤ steps) :
    m.follow steps g = m.find g := by
  induction steps using Nat.strongRecOn generalizing g with
  | ind steps ih =>
    cases hnext : m.next? g with
    | none => rw [find, follow_of_none hnext, follow_of_none hnext]
    | some older =>
      have hlt := hdown g older hnext
      obtain ⟨k, rfl⟩ : ∃ k, steps = k + 1 := ⟨steps - 1, by omega⟩
      obtain ⟨j, hj⟩ : ∃ j, g.n = j + 1 := ⟨g.n - 1, by omega⟩
      rw [find, hj, follow_succ, follow_succ, hnext]
      simp only
      rw [ih k (by omega) (by omega)]
      by_cases hjk : j = k
      · rw [hjk, ih k (by omega) (by omega)]
      · rw [ih j (by omega) (by omega)]

theorem find_of_none {g : GroupId} (h : m.next? g = none) : m.find g = g := follow_of_none h _

theorem find_of_some (hdown : m.MergesDown) {g older : GroupId} (h : m.next? g = some older) :
    m.find g = m.find older := by
  have hlt := hdown g older h
  obtain ⟨j, hj⟩ : ∃ j, g.n = j + 1 := ⟨g.n - 1, by omega⟩
  rw [find, hj, follow_succ, h]
  exact follow_eq_find hdown (by omega)

theorem mergeInduction (hdown : m.MergesDown) {motive : GroupId → Prop}
    (root : ∀ g, m.next? g = none → motive g)
    (merged : ∀ g older, m.next? g = some older → motive older → motive g) (g : GroupId) :
    motive g := by
  rcases g with ⟨n⟩
  induction n using Nat.strongRecOn with
  | ind n ih =>
    cases hnext : m.next? ⟨n⟩ with
    | none => exact root _ hnext
    | some older => exact merged _ older hnext (ih older.n (hdown _ older hnext))

theorem next?_find (hdown : m.MergesDown) (g : GroupId) : m.next? (m.find g) = none := by
  induction g using mergeInduction hdown with
  | root g h => rw [find_of_none h, h]
  | merged g older h ih => rw [find_of_some hdown h, ih]

/-- Nothing is to be followed from where following ends. -/
theorem find_find (hdown : m.MergesDown) (g : GroupId) : m.find (m.find g) = m.find g :=
  find_of_none (next?_find hdown g)

theorem find_le (hdown : m.MergesDown) (g : GroupId) : (m.find g).n ≤ g.n := by
  induction g using mergeInduction hdown with
  | root g h => rw [find_of_none h]
  | merged g older h ih =>
    rw [find_of_some hdown h]
    exact Nat.le_trans ih (Nat.le_of_lt (hdown g older h))

theorem next?_of_size_le {g : GroupId} (h : m.groups.size ≤ g.n) : m.next? g = none := by
  simp [next?, h]

theorem isLive_iff {g : GroupId} : m.isLive g = true ↔ g.n < m.groups.size ∧ m.next? g = none := by
  by_cases h : g.n < m.groups.size <;> simp [isLive, next?, h]

theorem find_congr (h : ∀ g, m'.next? g = m.next? g) (g : GroupId) : m'.find g = m.find g := by
  have hfollow : ∀ steps g, m'.follow steps g = m.follow steps g := by
    intro steps
    induction steps with
    | zero => intro g; rfl
    | succ steps ih =>
      intro g
      rw [follow_succ, follow_succ, h]
      cases m.next? g with
      | none => rfl
      | some older => exact ih older
  exact hfollow _ g

theorem isLive_find (hdown : m.MergesDown) {g : GroupId} (h : g.n < m.groups.size) :
    m.isLive (m.find g) = true :=
  isLive_iff.mpr ⟨Nat.lt_of_le_of_lt (find_le hdown g) h, next?_find hdown g⟩

/-! ### Well-formed memos -/

/-- The digest of a node whose inputs are in the given groups. -/
def digestText (n : Node) (inputs : List GroupId) : String :=
  n.label ++ " " ++ n.row.text ++ "(" ++ String.intercalate "," (inputs.map GroupId.text) ++ ")"

/-- A memo as it is kept. -/
structure WellFormed (m : Memo α) : Prop where
  homes_size : m.homes.size = m.size
  size_le : m.size ≤ Arena.capacity
  inputs_older : ∀ id n, m.node id = .ok n → ∀ i ∈ n.inputs, i.n < id.n
  homes_lt : ∀ i g : Nat, m.homes[i]? = some ⟨g⟩ → g < m.groups.size
  mergesDown : m.MergesDown
  /-- Each node is listed in the group in which it is found. -/
  mem_members_iff : ∀ g id, id ∈ m.members g ↔ m.groupOf id = .ok (m.find g)
  /-- A digest was made from the node, with groups that now hold its inputs. -/
  digests : ∀ d id, m.digests[d]? = some id → ∃ n gs, m.node id = .ok n ∧
    d = digestText n gs ∧ n.inputs.mapM m.groupOf = .ok (gs.map m.find)

theorem node_eq_ok {id : NodeId} {n : Node} : m.node id = .ok n ↔ m.arena.get id = .ok n :=
  Iff.rfl

theorem groupOf_eq_ok {id : NodeId} {g : GroupId} :
    m.groupOf id = .ok g ↔ ∃ home, m.homes[id.n]? = some home ∧ m.find home = g := by
  unfold groupOf
  rw [except_bind_eq_ok]
  simp only [require_eq_ok, pure, Except.pure, Except.ok.injEq]

theorem digest_eq_ok {n : Node} {d : String} :
    m.digest n = .ok d ↔ ∃ gs, n.inputs.mapM m.groupOf = .ok gs ∧ d = digestText n gs := by
  unfold digest
  rw [except_bind_eq_ok]
  simp only [pure, Except.pure, Except.ok.injEq, digestText, eq_comm]

theorem mapM_groupOf_of_lt (hm : m.WellFormed) {inputs : List NodeId}
    (h : ∀ i ∈ inputs, i.n < m.size) : ∃ gs, inputs.mapM m.groupOf = .ok gs := by
  apply exists_mapM_eq_ok
  intro i hi
  have hlt : i.n < m.homes.size := by
    rw [hm.homes_size]
    exact h i hi
  exact ⟨_, groupOf_eq_ok.mpr ⟨_, Array.getElem?_eq_getElem hlt, rfl⟩⟩

theorem exists_node {id : NodeId} (h : id.n < m.size) : ∃ n, m.node id = .ok n :=
  Arena.exists_get h

namespace WellFormed

variable (hm : m.WellFormed)

include hm

theorem exists_groupOf {id : NodeId} (h : id.n < m.size) : ∃ g, m.groupOf id = .ok g := by
  rw [← hm.homes_size] at h
  exact ⟨_, groupOf_eq_ok.mpr ⟨_, Array.getElem?_eq_getElem h, rfl⟩⟩

theorem lt_size_of_groupOf {id : NodeId} {g : GroupId} (h : m.groupOf id = .ok g) :
    id.n < m.size := by
  obtain ⟨home, hhome, -⟩ := groupOf_eq_ok.mp h
  rw [← hm.homes_size]
  exact (Array.getElem?_eq_some_iff.mp hhome).1

/-- The group of a node is live. -/
theorem find_of_groupOf {id : NodeId} {g : GroupId} (h : m.groupOf id = .ok g) :
    m.find g = g := by
  obtain ⟨home, -, rfl⟩ := groupOf_eq_ok.mp h
  exact find_find hm.mergesDown home

theorem groupOf_lt {id : NodeId} {g : GroupId} (h : m.groupOf id = .ok g) :
    g.n < m.groups.size := by
  obtain ⟨home, hhome, rfl⟩ := groupOf_eq_ok.mp h
  exact Nat.lt_of_le_of_lt (find_le hm.mergesDown home) (hm.homes_lt _ _ hhome)

theorem isLive_of_groupOf {id : NodeId} {g : GroupId} (h : m.groupOf id = .ok g) :
    m.isLive g = true := by
  refine isLive_iff.mpr ⟨hm.groupOf_lt h, ?_⟩
  rw [← hm.find_of_groupOf h]
  exact next?_find hm.mergesDown g

theorem input_lt {id i : NodeId} {n : Node} (h : m.node id = .ok n) (hi : i ∈ n.inputs) :
    i.n < m.size :=
  Nat.lt_trans (hm.inputs_older id n h i hi) (Arena.lt_size_of_get h)

theorem exists_inputGroups {id : NodeId} {n : Node} (h : m.node id = .ok n) :
    ∃ gs, n.inputs.mapM m.groupOf = .ok gs :=
  mapM_groupOf_of_lt hm fun _ hi => hm.input_lt h hi

end WellFormed

/-! ### Extension -/

/-- A memo has what another one has: nodes are kept and stay known under their
    digests, and what was in one group still is. -/
structure Extends (m m' : Memo α) : Prop where
  node : ∀ id n, m.node id = .ok n → m'.node id = .ok n
  home : ∀ (i : Nat) g, m.homes[i]? = some g → m'.homes[i]? = some g
  digests : ∀ (d : String) id, m.digests[d]? = some id → m'.digests[d]? = some id
  groups_le : m.groups.size ≤ m'.groups.size
  find : ∀ g h, m.find g = m.find h → m'.find g = m'.find h
  version_le : m.version ≤ m'.version
  eq_of_version : m'.version = m.version → m' = m

namespace Extends

theorem refl (m : Memo α) : m.Extends m :=
  ⟨fun _ _ h => h, fun _ _ h => h, fun _ _ h => h, Nat.le_refl _, fun _ _ h => h, Nat.le_refl _,
    fun _ => rfl⟩

theorem trans {m₁ m₂ m₃ : Memo α} (h : m₁.Extends m₂) (h' : m₂.Extends m₃) : m₁.Extends m₃ where
  node id n hn := h'.node id n (h.node id n hn)
  home i g hg := h'.home i g (h.home i g hg)
  digests d id hd := h'.digests d id (h.digests d id hd)
  groups_le := Nat.le_trans h.groups_le h'.groups_le
  find g g' hg := h'.find g g' (h.find g g' hg)
  version_le := Nat.le_trans h.version_le h'.version_le
  eq_of_version hv := by
    have hle := h.version_le
    have hle' := h'.version_le
    rw [h'.eq_of_version (by omega)]
    exact h.eq_of_version (by omega)

theorem size_le (h : m.Extends m') : m.size ≤ m'.size := by
  apply Nat.le_of_not_lt
  intro hlt
  obtain ⟨n, hn⟩ : ∃ n, m.node ⟨m'.size⟩ = .ok n := exists_node hlt
  exact Nat.lt_irrefl _ (Arena.lt_size_of_get (h.node _ n hn))

/-- The group of a node is the one that took over its old group. -/
theorem groupOf (h : m.Extends m') (hm : m.WellFormed) {id : NodeId} {g : GroupId}
    (hg : m.groupOf id = .ok g) : m'.groupOf id = .ok (m'.find g) := by
  have hlive := hm.find_of_groupOf hg
  obtain ⟨home, hhome, hfind⟩ := groupOf_eq_ok.mp hg
  refine groupOf_eq_ok.mpr ⟨home, h.home _ _ hhome, h.find _ _ ?_⟩
  rw [hfind, hlive]

theorem mapM_groupOf (h : m.Extends m') (hm : m.WellFormed) {inputs : List NodeId}
    {gs : List GroupId} (hgs : inputs.mapM m.groupOf = .ok gs) :
    inputs.mapM m'.groupOf = .ok (gs.map m'.find) := by
  rw [mapM_eq_ok] at hgs ⊢
  rw [List.forall₂_map_right_iff]
  exact hgs.imp fun _ _ hg => h.groupOf hm hg

end Extends

/-! ### What a memo keeps -/

/-- Under a number the memo keeps a node, or one that cannot be told from it by its
    digest. -/
def Keeps (m : Memo α) (n : Node) (id : NodeId) : Prop :=
  ∃ k inputs gs, m.node id = .ok k ∧ digestText k gs = digestText n inputs ∧
    k.inputs.mapM m.groupOf = .ok (gs.map m.find) ∧
    n.inputs.mapM m.groupOf = .ok (inputs.map m.find)

theorem Keeps.lt_size {n : Node} {id : NodeId} (h : m.Keeps n id) : id.n < m.size := by
  rcases h with ⟨k, -, -, hk, -⟩
  exact Arena.lt_size_of_get hk

theorem Extends.keeps (h : m.Extends m') (hm : m.WellFormed) {n : Node} {id : NodeId}
    (hn : m.Keeps n id) : m'.Keeps n id := by
  have hfind : ∀ gs : List GroupId, (gs.map m.find).map m'.find = gs.map m'.find := by
    intro gs
    rw [List.map_map]
    exact List.map_congr_left fun g _ => h.find _ _ (find_find hm.mergesDown g)
  rcases hn with ⟨k, inputs, gs, hk, hd, hgs, hinputs⟩
  refine ⟨k, inputs, gs, h.node _ _ hk, hd, ?_, ?_⟩
  · rw [h.mapM_groupOf hm hgs, hfind]
  · rw [h.mapM_groupOf hm hinputs, hfind]

theorem keeps_of_digest (hm : m.WellFormed) {n : Node} {inputs : List GroupId} {id : NodeId}
    (hinputs : n.inputs.mapM m.groupOf = .ok inputs)
    (h : m.digests[digestText n inputs]? = some id) : m.Keeps n id := by
  obtain ⟨k, gs, hk, hd, hgs⟩ := hm.digests _ _ h
  exact ⟨k, inputs, gs, hk, hd.symm, hgs, (Extends.refl m).mapM_groupOf hm hinputs⟩

theorem wellFormed_empty (rows : α) : WellFormed ({ defaultRows := rows } : Memo α) where
  homes_size := rfl
  size_le := Nat.zero_le _
  inputs_older id n h := by simp [node_eq_ok, Arena.get_eq_ok] at h
  homes_lt i g h := by simp at h
  mergesDown g older h := by simp [next?] at h
  mem_members_iff g id := by simp [members, groupOf_eq_ok]
  digests d id h := by simp at h

end Memo

end Polystore
