import Polystore.Proofs.Digests
import Polystore.Proofs.Matches

/-
  Polystore/Proofs/GroupMarks.lean
  ================================
  **Marks on groups.**  What all members of a group have in common can be written down
  as a mark of the group.  When a digest together with the marks of the inputs tells the
  mark of a node, groups that turn out to share a node have one mark.  So inserting a
  node that fits keeps the marks also where groups are merged (`Marked.insert`).
-/

namespace Polystore.Memo

variable {α β : Type} {m m' : Memo α} {fits : Node → List β → β → Prop} {mark : GroupId → β}

/-- Each node fits the marks of the groups of its inputs and of its own. -/
def Marked (m : Memo α) (fits : Node → List β → β → Prop) (mark : GroupId → β) : Prop :=
  ∀ id n g gs, m.Has id n g → n.inputs.mapM m.groupOf = .ok gs → fits n (gs.map mark) (mark g)

theorem Marked.empty (rows : α) (fits : Node → List β → β → Prop) (mark : GroupId → β) :
    Marked { defaultRows := rows } fits mark :=
  fun _ _ _ _ h => absurd h.lt_size (Nat.not_lt_zero _)

/-- The marks of groups that there are not may be anything. -/
theorem Marked.beyond (hm : m.WellFormed) (h : m.Marked fits mark) (b : β) :
    m.Marked fits fun g => if g.n < m.groups.size then mark g else b := by
  have hsame {g : GroupId} {id : NodeId} (hg : m.groupOf id = .ok g) :
      (if g.n < m.groups.size then mark g else b) = mark g := if_pos (hm.groupOf_lt hg)
  intro id n g gs hn hgs
  have hmarks : gs.map (fun g => if g.n < m.groups.size then mark g else b) = gs.map mark := by
    refine List.map_congr_left fun g' hg' => ?_
    obtain ⟨i, -, hi⟩ := exists_of_forall₂_right (mapM_eq_ok.mp hgs) g' hg'
    exact hsame hi
  simp only [hmarks, hsame hn.group]
  exact h id n g gs hn hgs

theorem mapM_singleton {k : NodeId} {h : GroupId} {gs : List GroupId}
    (hgs : [k].mapM m.groupOf = .ok gs) (hk : m.groupOf k = .ok h) : gs = [h] := by
  have hsingle : [k].mapM m.groupOf = .ok [h] := mapM_eq_ok.mpr (.cons hk .nil)
  exact Except.ok.inj (hgs.symm.trans hsingle)

/-- A node with one input. -/
theorem Marked.over (h : m.Marked fits mark) {r i : NodeId} {root : Node} {g below : GroupId}
    (hroot : m.Has r root g) (hop : root.inputs = [i]) (hbelow : m.groupOf i = .ok below) :
    fits root [mark below] (mark g) := by
  refine h r root g [below] hroot ?_
  rw [hop]
  exact mapM_eq_ok.mpr (.cons hbelow .nil)

/-- A memo that has grown by nodes that fit, while groups have kept their marks. -/
theorem Marked.of_extends (hm : m.WellFormed) (h : m.Marked fits mark) {mark' : GroupId → β}
    (hkeep : ∀ id g g', m.groupOf id = .ok g → m'.groupOf id = .ok g' → mark' g' = mark g)
    (hnew : ∀ id n, m'.node id = .ok n → m.node id = .ok n ∨
      ∀ g gs, m'.groupOf id = .ok g → n.inputs.mapM m'.groupOf = .ok gs →
        fits n (gs.map mark') (mark' g)) : m'.Marked fits mark' := by
  intro id n g gs hn hgs
  rcases hnew id n hn.node with hold | hfits
  · obtain ⟨g₀, hg₀⟩ := hm.exists_groupOf (Arena.lt_size_of_get hold)
    obtain ⟨gs₀, hgs₀⟩ := hm.exists_inputGroups hold
    have hmarks : gs.map mark' = gs₀.map mark :=
      map_eq_of_mapM (fun i g g₀ hg hg₀ => hkeep i g₀ g hg₀ hg) hgs hgs₀
    rw [hmarks, hkeep id g₀ g hg₀ hn.group]
    exact h id n g₀ gs₀ ⟨hold, hg₀⟩ hgs₀
  · exact hfits g gs hn.group hgs

theorem Marked.of_new (hm : m.WellFormed) (h : m.Marked fits mark) (hext : m.Extends m')
    {mark' : GroupId → β} {n : Node} {gs : List GroupId} {new : GroupId}
    (hgs : n.inputs.mapM m.groupOf = .ok gs)
    (hnode : ∀ i k, m'.node i = .ok k → m.node i = .ok k ∨ i = ⟨m.size⟩ ∧ k = n)
    (hgroup : m'.groupOf ⟨m.size⟩ = .ok new) (hsame : ∀ g, m.find g = g → m'.find g = g)
    (hold : ∀ g, g.n < m.groups.size → mark' g = mark g)
    (hfits : fits n (gs.map mark) (mark' new)) : m'.Marked fits mark' := by
  have hkeep : ∀ i a b, m.groupOf i = .ok a → m'.groupOf i = .ok b → mark' b = mark a := by
    intro i a b ha hb
    have hfound := hext.groupOf hm ha
    rw [hsame a (hm.find_of_groupOf ha)] at hfound
    obtain rfl : a = b := Except.ok.inj (hfound.symm.trans hb)
    exact hold a (hm.groupOf_lt ha)
  apply h.of_extends hm hkeep
  intro i k hk
  rcases hnode i k hk with hk | ⟨rfl, rfl⟩
  · exact .inl hk
  · refine .inr fun g gs' hg hgs' => ?_
    obtain rfl : g = new := Except.ok.inj (hg.symm.trans hgroup)
    have hmarks : gs'.map mark' = gs.map mark :=
      map_eq_of_mapM (fun i b a hb ha => hkeep i a b ha hb) hgs' hgs
    rw [hmarks]
    exact hfits

/-- The mark of the node that is known under a digest. -/
theorem Marked.exists_known (hm : m.WellFormed) (h : m.Marked fits mark) {n : Node}
    {gs : List GroupId} {id : NodeId} {g : GroupId} (hgs : n.inputs.mapM m.groupOf = .ok gs)
    (hknown : m.digests[digestText n gs]? = some id) (hg : m.groupOf id = .ok g) :
    ∃ k, m.node id = .ok k ∧ digestText k gs = digestText n gs ∧
      gs.length = k.inputs.length ∧ fits k (gs.map mark) (mark g) := by
  obtain ⟨k, hs, hk, hd, hhs⟩ := hm.digests _ _ hknown
  have hlength : gs.length = n.inputs.length := (mapM_eq_ok.mp hgs).length_eq.symm
  have hlength' : hs.length = k.inputs.length := by
    rw [(mapM_eq_ok.mp hhs).length_eq, List.length_map]
  obtain ⟨-, -, rfl⟩ := digestText_inj hlength hlength' hd.symm
  refine ⟨k, hk, hd.symm, hlength', ?_⟩
  -- the names in the digest are those of live groups
  have hlive : hs.map m.find = hs := by
    refine (List.map_congr_left fun g hg => ?_).trans (List.map_id hs)
    obtain ⟨i, -, hi⟩ := exists_of_forall₂_right (mapM_eq_ok.mp hgs) g hg
    exact hm.find_of_groupOf hi
  rw [hlive] at hhs
  exact h id k g hs ⟨hk, hg⟩ hhs

theorem node_entered {n k : Node} {d : String} {g : GroupId} {i : NodeId}
    (h : (m.entered n d g).node i = .ok k) : m.node i = .ok k ∨ i = ⟨m.size⟩ ∧ k = n := by
  rcases Arena.get_push.mp h with h | ⟨hid, rfl⟩
  · exact .inl h
  · cases i
    exact .inr ⟨congrArg NodeId.mk hid, rfl⟩

/-- Merging groups of one mark. -/
theorem Marked.merge (hm : m.WellFormed) (h : m.Marked fits mark) {a b : GroupId}
    (ha : a.n < m.groups.size) (hb : b.n < m.groups.size)
    (hsame : mark (m.find a) = mark (m.find b)) :
    (m.merge a b).Marked fits mark ∧
      ∀ i g g', m.groupOf i = .ok g → (m.merge a b).groupOf i = .ok g' → mark g' = mark g := by
  have hkeep : ∀ i g g', m.groupOf i = .ok g → (m.merge a b).groupOf i = .ok g' →
      mark g' = mark g := by
    intro i g g' hg hg'
    obtain ⟨g₀, hg₀, hcases⟩ := groupOf_merge hm ha hb hg'
    obtain rfl : g = g₀ := Except.ok.inj (hg.symm.trans hg₀)
    rcases hcases with rfl | ⟨rfl, rfl⟩ | ⟨rfl, rfl⟩
    · rfl
    · rw [hsame]
    · rw [hsame]
  refine ⟨h.of_extends hm hkeep fun i k hk => ?_, hkeep⟩
  rw [node_merge] at hk
  exact .inl hk

/-- Inserting a node that fits, where it is said to belong.  Only a group that is opened
    for it gets a new mark. -/
theorem Marked.insert (hm : m.WellFormed) (h : m.Marked fits mark) {n : Node} {gs : List GroupId}
    {target : Option GroupId} {id : NodeId} {at_ : β} (hgs : n.inputs.mapM m.groupOf = .ok gs)
    (htarget : ∀ g, target = some g → g.n < m.groups.size) (hfits : fits n (gs.map mark) at_)
    (hat : ∀ g, target = some g → mark (m.find g) = at_)
    (htold : ∀ i k at', m.node i = .ok k → digestText k gs = digestText n gs →
      gs.length = k.inputs.length → fits k (gs.map mark) at' → at' = at_)
    (hinserted : m.Inserted n gs target id m') :
    ∃ mark', m'.Marked fits mark' ∧ (∀ g, m'.groupOf id = .ok g → mark' g = at_) ∧
      ∀ g, mark' g = mark g ∨ target = none ∧ mark' g = at_ := by
  have hgrown := hinserted.grown hm hgs htarget
  have hext := hgrown.grows
  have hmark {known : NodeId} {g : GroupId} (hknown : m.digests[digestText n gs]? = some known)
      (hg : m.groupOf known = .ok g) : mark g = at_ := by
    obtain ⟨k, hk, hd, hlength, hfitsk⟩ := h.exists_known hm hgs hknown hg
    exact htold known k _ hk hd hlength hfitsk
  cases hinserted with
  | known hknown =>
    exact ⟨mark, h, fun g hg => hmark hknown hg, fun _ => .inl rfl⟩
  | @merged _ g current hknown hcurrent =>
    have hcurrent' := hmark hknown hcurrent
    have hg : (m.find g).n < m.groups.size :=
      Nat.lt_of_le_of_lt (find_le hm.mergesDown g) (htarget g rfl)
    have hsame : mark (m.find current) = mark (m.find (m.find g)) := by
      rw [hm.find_of_groupOf hcurrent, find_find hm.mergesDown, hcurrent', hat g rfl]
    obtain ⟨hmarked, hkeep⟩ := h.merge hm (hm.groupOf_lt hcurrent) hg hsame
    exact ⟨mark, hmarked, fun b hb => (hkeep id current b hcurrent hb).trans hcurrent',
      fun _ => .inl rfl⟩
  | @joined g hsize =>
    have hfind : ∀ g', (m.entered n (digestText n gs) (m.find g)).find g' = m.find g' :=
      find_entered
    have hgroup := hgrown.groupOf g rfl
    rw [hfind] at hgroup
    refine ⟨mark, h.of_new hm hext hgs (fun i k hk => node_entered hk) hgroup
      (fun g' hg' => by rw [hfind, hg']) (fun _ _ => rfl) (hat g rfl ▸ hfits), ?_,
      fun _ => .inl rfl⟩
    intro g' hg'
    obtain rfl := Except.ok.inj (hg'.symm.trans hgroup)
    exact hat g rfl
  | @opened rows hsize =>
    have hfind : ∀ g', ((m.openGroup rows).2.entered n (digestText n gs)
        (m.openGroup rows).1).find g' = m.find g' := by
      intro g'
      rw [find_entered, find_openGroup]
    have hgroup : ((m.openGroup rows).2.entered n (digestText n gs)
        (m.openGroup rows).1).groupOf ⟨m.size⟩ = .ok (m.openGroup rows).1 := by
      refine (groupOf_entered (hm.openGroup rows).homes_size).mpr (.inr ⟨rfl, ?_⟩)
      exact find_of_none (isLive_iff.mp isLive_openGroup).2
    have hself : (if (m.openGroup rows).1 = ⟨m.groups.size⟩ then at_
        else mark (m.openGroup rows).1) = at_ := if_pos rfl
    refine ⟨fun g => if g = ⟨m.groups.size⟩ then at_ else mark g,
      h.of_new hm hext hgs (fun i k hk => node_entered (m := (m.openGroup rows).2) hk) hgroup
      (fun g' hg' => by rw [hfind, hg']) (fun g' hg' => ?_) (hself.symm ▸ hfits), ?_, fun g' => ?_⟩
    · refine if_neg ?_
      rintro rfl
      exact Nat.lt_irrefl _ hg'
    · intro g' hg'
      obtain rfl := Except.ok.inj (hg'.symm.trans hgroup)
      exact hself
    · by_cases hg' : g' = ⟨m.groups.size⟩
      · exact .inr ⟨rfl, if_pos hg'⟩
      · exact .inl (if_neg hg')

end Polystore.Memo
