import Polystore.Proofs.NodeIdentity

/-
  Polystore/Proofs/Deduplication.lean
  ===================================
  **Which nodes a memo finds again.**  A node is entered under a digest with the names
  that the groups of its inputs have then, and is known under these names for good
  (`Memo.KnownUnder`).  A merge below it gives one of these groups another name, and
  digests are not made again.  So a node is found as long as the groups of its inputs
  are there under the old names; after that an identical node is entered once more,
  unless one has been entered under the new names already
  (`Memo.ByCalls.finds_or_renamed`).
-/

namespace Polystore

namespace Memo

variable {α : Type} {m m' : Memo α} {n k : Node} {gs : List GroupId} {target : Option GroupId}
  {id : NodeId}

/-! ### The names under which a node is known -/

/-- A node is known under these names of the groups of its inputs; they may have been
    merged into others since. -/
structure KnownUnder (m : Memo α) (id : NodeId) (k : Node) (gs : List GroupId) : Prop where
  node : m.node id = .ok k
  digest : m.digests[digestText k gs]? = some id
  inputs : k.inputs.mapM m.groupOf = .ok (gs.map m.find)

/-- Every node is known under some names. -/
def Knows (m : Memo α) : Prop := ∀ id k, m.node id = .ok k → ∃ gs, m.KnownUnder id k gs

theorem KnownUnder.extended (h : m.KnownUnder id k gs) (hm : m.WellFormed)
    (hext : m.Extends m') : m'.KnownUnder id k gs where
  node := hext.node id k h.node
  digest := hext.digests _ _ h.digest
  inputs := by
    rw [hext.mapM_groupOf hm h.inputs, List.map_map]
    exact congrArg Except.ok (List.map_congr_left fun g _ =>
      hext.find _ _ (find_find hm.mergesDown g))

theorem Inserted.knows (hm : m.WellFormed) (h : m.Inserted n gs target id m')
    (hinputs : n.inputs.mapM m.groupOf = .ok gs)
    (htarget : ∀ g, target = some g → g.n < m.groups.size) (hknows : m.Knows) : m'.Knows := by
  have hgrown := h.grown hm hinputs htarget
  have hkept {i : NodeId} {k : Node} (hk : m.node i = .ok k) : ∃ gs, m'.KnownUnder i k gs := by
    obtain ⟨hs, hknown⟩ := hknows i k hk
    exact ⟨hs, hknown.extended hm hgrown.grows⟩
  have hentered {i : NodeId} {k : Node} (hi : i.n = m.size) (hid : id = ⟨m.size⟩) (hk : k = n)
      (hnode : m'.node i = .ok k) : ∃ gs, m'.KnownUnder i k gs := by
    obtain rfl : i = id := by rw [hid]; cases i; exact congrArg NodeId.mk hi
    subst hk
    exact ⟨gs, hnode, h.digest_known, hgrown.grows.mapM_groupOf hm hinputs⟩
  intro i k hk
  cases h with
  | known _ => exact hkept hk
  | merged _ _ =>
    rw [node_merge] at hk
    exact hkept hk
  | joined _ _ =>
    rcases Arena.get_push.mp hk with hold | ⟨hi, hkn⟩
    · exact hkept hold
    · exact hentered hi rfl hkn hk
  | opened _ _ =>
    rcases Arena.get_push.mp hk with hold | ⟨hi, hkn⟩
    · exact hkept hold
    · exact hentered hi rfl hkn hk

theorem Reachable.knows [Quantity α] (h : m.Reachable) : m.Knows := by
  induction h with
  | empty rows =>
    intro id k hk
    simp [node_eq_ok, Arena.get_eq_ok] at hk
  | @insert m m' n target id hreachable htarget hinsert ih =>
    have hm := hreachable.wellFormed
    have hends : Ends (fun _ => True) (m.insert n target) _ :=
      insert_ends hm (.inr fun _ => trivial)
    obtain ⟨gs, hgs, hinserted⟩ := hends.result hinsert
    exact hinserted.knows hm hgs htarget ih
  | @merge m a b hreachable ha hb ih =>
    intro id k hk
    rw [node_merge] at hk
    obtain ⟨gs, hknown⟩ := ih id k hk
    have hm := hreachable.wellFormed
    exact ⟨gs, hknown.extended hm (merge_grows hm ha hb).2.1⟩

/-- The names under which a node is known stay what they are. -/
theorem KnownUnder.after [Quantity α] (h : m.KnownUnder id k gs) (hm : m.Reachable) {x : Call}
    (hnames : x.Names m) (hroom : m.size < Arena.capacity) : (x.after m).KnownUnder id k gs := by
  have hwell := hm.wellFormed
  cases x with
  | merge a b =>
    have hgrows := merge_grows hwell (mem_groupIds.mp hnames.1) (mem_groupIds.mp hnames.2)
    exact h.extended hwell hgrows.2.1
  | insert n target =>
    change (m.attempt n target).2.KnownUnder id k gs
    cases hinsert : m.insert n target with
    | error e =>
      rw [attempt_of_error hwell hroom hinsert]
      exact h
    | ok r =>
      rw [attempt_of_ok hwell hinsert]
      have hends : Ends (fun _ => True) (m.insert n target) _ :=
        insert_ends hwell (.inr fun _ => trivial)
      obtain ⟨gs, hgs, hinserted⟩ := hends.result hinsert
      have hgrown := hinserted.grown hwell hgs fun g hg => mem_groupIds.mp (hnames g hg)
      exact h.extended hwell hgrown.grows

/-! ### Inserting a node that is there -/

theorem insert_of_new [Quantity α] (hm : m.WellFormed) (hinputs : n.inputs.mapM m.groupOf = .ok gs)
    (hnew : m.digests[digestText n gs]? = none) (hroom : m.size < Arena.capacity) :
    ∃ m', m.insert n none = .ok (⟨m.size⟩, m') ∧ m'.size = m.size + 1 := by
  have holder : ∀ i ∈ n.inputs, i.n < m.size := by
    intro i hi
    obtain ⟨g, -, hg⟩ := exists_of_forall₂_left (mapM_eq_ok.mp hinputs) i hi
    exact hm.lt_size_of_groupOf hg
  let opened := m.openGroup (estimateRows n (gs.map m.rows) m.defaultRows)
  refine ⟨opened.2.entered n (digestText n gs) opened.1, ?_, Array.size_push _⟩
  refine except_bind_eq_ok.mpr ⟨_, digest_eq_ok.mpr ⟨gs, hinputs, rfl⟩, ?_⟩
  rw [hnew]
  have henter : opened.2.enter n (digestText n gs) opened.1 = _ := enter_eq_ok holder hroom
  exact except_bind_eq_ok.mpr ⟨gs, hinputs, henter⟩

/-- A node that equals one of the memo but for its inputs, which are in the same groups
    now, is answered with that one as long as these groups are there under the names
    under which it is known.  Otherwise it is answered with a node of the same digest
    that is known under the present names, or entered if there is none; and that takes
    a merge which has given one of the groups another name. -/
theorem ByCalls.finds_or_renamed [Quantity α] (h : m.ByCalls) (hroom : m.size < Arena.capacity)
    (hk : m.node id = .ok k) : ∃ gs, m.KnownUnder id k gs ∧
      (∀ x : Call, x.Names m → (x.after m).KnownUnder id k gs) ∧
      ∀ inputs : List NodeId, inputs.mapM m.groupOf = k.inputs.mapM m.groupOf →
        let n := k.withInputs inputs
        let hs := gs.map m.find
        ((∀ g ∈ gs, m.find g = g) → m.attempt n none = (.ok id, m)) ∧
        ((∃ id' k', m.KnownUnder id' k' hs ∧ digestText k' hs = digestText k hs ∧
            (k'.IsPlain → k.IsPlain → k'.ReadsAs k) ∧ m.attempt n none = (.ok id', m)) ∨
          (∃ g ∈ gs, m.find g ≠ g) ∧
            ∃ m', m.attempt n none = (.ok ⟨m.size⟩, m') ∧ m'.size = m.size + 1) := by
  have hm := h.reachable.wellFormed
  obtain ⟨gs, hknown⟩ := h.reachable.knows id k hk
  refine ⟨gs, hknown, fun x hnames => hknown.after h.reachable hnames hroom, fun inputs hsame => ?_⟩
  intro n hs
  have hlength (l : List NodeId) (h : l.mapM m.groupOf = .ok hs) : l.length = hs.length :=
    (mapM_eq_ok.mp h).length_eq
  have hgroups : inputs.mapM m.groupOf = .ok hs := hsame.trans hknown.inputs
  have hinputs : n.inputs.mapM m.groupOf = .ok hs := by
    rw [Node.inputs_withInputs ((hlength _ hgroups).trans (hlength _ hknown.inputs).symm)]
    exact hgroups
  have hdigest : digestText n hs = digestText k hs := digestText_withInputs k inputs hs
  have hanswer {id' : NodeId} (hd : m.digests[digestText k hs]? = some id') :
      m.attempt n none = (.ok id', m) :=
    attempt_of_ok hm (insert_of_known hm.mergesDown hinputs (hdigest ▸ hd) (by simp))
  have hstay : (∀ g ∈ gs, m.find g = g) → hs = gs := fun hlive =>
    (List.map_congr_left hlive).trans (List.map_id gs)
  refine ⟨fun hlive => hanswer (hstay hlive ▸ hknown.digest), ?_⟩
  cases hd : m.digests[digestText k hs]? with
  | some id' =>
    left
    obtain ⟨k', gs', hk', htext, hgs'⟩ := hm.digests _ _ hd
    have hlength' : gs'.length = k'.inputs.length := by
      rw [(mapM_eq_ok.mp hgs').length_eq, List.length_map]
    have hlength'' := (hlength _ hknown.inputs).symm
    obtain ⟨-, -, rfl⟩ := digestText_inj hlength' hlength'' htext
    refine ⟨id', k', ⟨hk', htext ▸ hd, hgs'⟩, htext.symm, fun hplain' hplain => ?_, hanswer hd⟩
    exact readsAs_of_digestText hplain' hplain (hlength'' ▸ length_inputs_le k)
      (hlength' ▸ length_inputs_le k') htext.symm
  | none =>
    right
    refine ⟨?_, ?_⟩
    · by_contra hlive
      push Not at hlive
      rw [hstay hlive, hknown.digest] at hd
      cases hd
    · obtain ⟨m', hinsert, hsize⟩ := insert_of_new hm hinputs (hdigest ▸ hd) hroom
      exact ⟨m', attempt_of_ok hm hinsert, hsize⟩

/-! ### A merge below a node -/

/-- Rows in two groups, the second ones filtered. -/
def filteredApart : Memo Float :=
  (twoGroups.openGroup (estimateRows (Node.keepAll ⟨1⟩) [twoGroups.rows ⟨1⟩] 100)).2.entered
    (Node.keepAll ⟨1⟩) (digestText (Node.keepAll ⟨1⟩) [⟨1⟩]) ⟨2⟩

theorem insert_filteredApart :
    twoGroups.insert (Node.keepAll ⟨1⟩) none = .ok (⟨2⟩, filteredApart) := by
  refine except_bind_eq_ok.mpr ⟨digestText (Node.keepAll ⟨1⟩) [⟨1⟩], rfl, ?_⟩
  rw [digests_twoGroups]
  rfl

theorem byCalls_filteredApart : filteredApart.ByCalls := by
  have htwo := byCalls_noRows.call (.insert (Node.noRows .enumerable) none) (by simp [Call.Names])
    (by decide)
  rw [Call.after, attempt_of_ok byCalls_noRows.reachable.wellFormed insert_twoGroups] at htwo
  have hapart := htwo.call (.insert (Node.keepAll ⟨1⟩) none) (by simp [Call.Names]) (by decide)
  rw [Call.after, attempt_of_ok htwo.reachable.wellFormed insert_filteredApart] at hapart
  exact hapart

/-- No group has been merged. -/
theorem find_filteredApart (g : GroupId) : filteredApart.find g = g := by
  refine find_of_none ?_
  rw [filteredApart, next?_entered, next?_openGroup, twoGroups, next?_entered, next?_openGroup,
    noRows, next?_entered, next?_openGroup]
  simp [next?]

/-- Before the merge the filter is found. -/
theorem finds_filteredApart :
    filteredApart.attempt (Node.keepAll ⟨1⟩) none = (.ok ⟨2⟩, filteredApart) := by
  have hnode : filteredApart.node ⟨2⟩ = .ok (Node.keepAll ⟨1⟩) := rfl
  obtain ⟨gs, -, -, hfinds⟩ := byCalls_filteredApart.finds_or_renamed (by decide) hnode
  exact (hfinds [⟨1⟩] rfl).1 fun g _ => find_filteredApart g

/-- After the groups of the rows have been merged, the filter is inserted as it is in
    the memo, and it is entered once more. -/
theorem attempt_filter_after_merge : ∃ m : Memo Float, m.ByCalls ∧ m.size = 3 ∧
    m.node ⟨2⟩ = .ok (Node.keepAll ⟨1⟩) ∧ (m.attempt (Node.keepAll ⟨1⟩) none).1 = .ok ⟨3⟩ := by
  have hmerged := byCalls_filteredApart.call (.merge ⟨0⟩ ⟨1⟩)
    (by simp [Call.Names, mem_groupIds, filteredApart, twoGroups, noRows, entered, openGroup])
    (by decide)
  have hne : digestText (Node.keepAll ⟨1⟩) [⟨1⟩] ≠ digestText (Node.keepAll ⟨1⟩) [⟨0⟩] := by
    decide
  have hnew :
      (filteredApart.merge ⟨0⟩ ⟨1⟩).digests[digestText (Node.keepAll ⟨1⟩) [⟨0⟩]]? = none := by
    rw [digests_merge, filteredApart, entered, getElem?_insert_of_ne hne]
    exact digests_twoGroups ⟨0⟩
  have hwell := hmerged.reachable.wellFormed
  have hinputs :
      (Node.keepAll ⟨1⟩).inputs.mapM (filteredApart.merge ⟨0⟩ ⟨1⟩).groupOf = .ok [⟨0⟩] := rfl
  obtain ⟨m', hinsert, -⟩ := insert_of_new hwell hinputs hnew (by decide)
  refine ⟨_, hmerged, rfl, rfl, ?_⟩
  exact congrArg Prod.fst (attempt_of_ok hwell hinsert)

end Memo

end Polystore
