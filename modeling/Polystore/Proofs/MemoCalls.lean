import Polystore.Proofs.Digests
import Polystore.Proofs.MemoPartition
import Polystore.Proofs.PickedPlans

/-
  Polystore/Proofs/MemoCalls.lean
  ===============================
  **A memo under any sequence of calls.**  An insertion is read here as it writes,
  so that a failing one could leave a half made change behind; while there is room
  it does not (`Memo.attempt_eq`).  So the memos after calls that may fail are the
  memos after calls that succeed, and keep what these keep.

  Digests are not made again when groups merge.  So the same node may be entered a
  second time, but only after the first insertion has merged the group of one of
  its inputs away (`Memo.Inserted.again`).
-/

namespace Polystore

namespace Memo

variable {α : Type} {m m' : Memo α}

/-! ### Insertions that write -/

section Writing

variable {β γ : Type}

theorem run_get_bind (next : Memo α → Writing α γ) (m : Memo α) :
    (get >>= next).run.run m = (next m).run.run m := rfl

theorem run_lift_bind (x : Except Error β) (next : β → Writing α γ) (m : Memo α) :
    (liftM x >>= next).run.run m = match x with
      | .ok b => (next b).run.run m
      | .error e => (.error e, m) := by
  cases x <;> rfl

theorem run_write (change : Memo α → Except Error (β × Memo α)) (m : Memo α) :
    (write change).run.run m = match change m with
      | .ok (b, m') => (.ok b, m')
      | .error e => (.error e, m) := by
  have hrun := run_lift_bind (change m) (fun r => do set r.2; return r.1) m
  refine Eq.trans ?_ (hrun.trans ?_)
  · rfl
  · cases change m <;> rfl

end Writing

theorem enter_eq_ok {n : Node} {d : String} {g : GroupId} (hinputs : ∀ i ∈ n.inputs, i.n < m.size)
    (hroom : m.size < Arena.capacity) :
    m.enter n d g = .ok (⟨m.size⟩, m.entered n d g) := by
  have hadd : Ends (fun _ => False) (m.arena.add n) _ :=
    Arena.add_ends (.inl ⟨hinputs, .inl hroom⟩)
  obtain ⟨r, hr, rfl, -⟩ := hadd.exists_result
  unfold enter
  rw [hr]
  rfl

/-- An insertion writes what it answers.  A failing one writes nothing while there
    is room. -/
theorem attempt_eq [Quantity α] (hm : m.WellFormed) (n : Node) (target : Option GroupId) :
    ∃ left, (m.size < Arena.capacity → left = m) ∧
      m.attempt n target = match m.insert n target with
        | .ok (id, m') => (.ok id, m')
        | .error e => (.error e, left) := by
  unfold attempt insertInPlace insert
  rw [run_get_bind, run_lift_bind]
  cases hd : m.digest n with
  | error e => exact ⟨m, fun _ => rfl, rfl⟩
  | ok d =>
    dsimp only [bind, Except.bind]
    cases m.digests[d]? with
    | some known =>
      refine ⟨m, fun _ => rfl, ?_⟩
      cases target with
      | none => rfl
      | some g =>
        change (liftM (m.groupOf known) >>= _ : Writing α NodeId).run.run m = _
        rw [run_lift_bind]
        dsimp only
        cases m.groupOf known <;> rfl
    | none =>
      cases target with
      | some g =>
        refine ⟨m, fun _ => rfl, ?_⟩
        change (write fun m => m.enter n d (m.find g)).run.run m = _
        rw [run_write]
        dsimp only
        cases m.enter n d (m.find g) <;> rfl
      | none =>
        obtain ⟨gs, hgs, -⟩ := digest_eq_ok.mp hd
        have hinputs : ∀ i ∈ n.inputs, i.n < m.size := by
          intro i hi
          obtain ⟨g, -, hg⟩ := exists_of_forall₂_left (mapM_eq_ok.mp hgs) i hi
          exact hm.lt_size_of_groupOf hg
        let opened := m.openGroup (estimateRows n (gs.map m.rows) m.defaultRows)
        change ∃ left, _ ∧ (liftM (n.inputs.mapM m.groupOf) >>= _ : Writing α NodeId).run.run m = _
        simp only [run_lift_bind, hgs]
        change ∃ left, _ ∧ (write fun m' => m'.enter n d opened.1).run.run opened.2 =
          match opened.2.enter n d opened.1 with
          | .ok (id, m') => (.ok id, m')
          | .error e => (.error e, left)
        rw [run_write]
        -- only here is something written before the call can fail: the group is open
        by_cases hroom : m.size < Arena.capacity
        · have henter : opened.2.enter n d opened.1 = _ := enter_eq_ok hinputs hroom
          rw [henter]
          exact ⟨m, fun _ => rfl, rfl⟩
        · refine ⟨opened.2, fun h => absurd h hroom, ?_⟩
          cases opened.2.enter n d opened.1 <;> rfl

theorem attempt_of_ok [Quantity α] (hm : m.WellFormed) {n : Node} {target : Option GroupId}
    {id : NodeId} (h : m.insert n target = .ok (id, m')) : m.attempt n target = (.ok id, m') := by
  obtain ⟨left, -, heq⟩ := attempt_eq hm n target
  rw [heq, h]

theorem attempt_of_error [Quantity α] (hm : m.WellFormed) (hroom : m.size < Arena.capacity)
    {n : Node} {target : Option GroupId} {e : Error} (h : m.insert n target = .error e) :
    m.attempt n target = (.error e, m) := by
  obtain ⟨left, hleft, heq⟩ := attempt_eq hm n target
  rw [heq, h, hleft hroom]

/-! ### Sequences of calls -/

/-- A call that changes a memo. -/
inductive Call
  | insert (n : Node) (target : Option GroupId)
  | merge (a b : GroupId)

namespace Call

variable [Quantity α]

/-- The memo after a call, whether or not the call fails. -/
def after (m : Memo α) : Call → Memo α
  | insert n target => (m.attempt n target).2
  | merge a b => m.merge a b

/-- The groups that a call names have been handed out. -/
def Names (m : Memo α) : Call → Prop
  | insert _ target => ∀ g ∈ target, g ∈ m.groupIds
  | merge a b => a ∈ m.groupIds ∧ b ∈ m.groupIds

end Call

/-- Memos after a sequence of calls, each made while there is room. -/
inductive ByCalls [Quantity α] : Memo α → Prop
  | empty (rows : α) : ByCalls { defaultRows := rows }
  | call {m : Memo α} (h : ByCalls m) (x : Call) (hnames : x.Names m)
    (hroom : m.size < Arena.capacity) : ByCalls (x.after m)

theorem Reachable.call [Quantity α] (h : m.Reachable) {x : Call} (hnames : x.Names m)
    (hroom : m.size < Arena.capacity) : (x.after m).Reachable := by
  cases x with
  | insert n target =>
    change (m.attempt n target).2.Reachable
    cases hinsert : m.insert n target with
    | error e =>
      rw [attempt_of_error h.wellFormed hroom hinsert]
      exact h
    | ok r =>
      rw [attempt_of_ok h.wellFormed hinsert]
      exact .insert h (fun g hg => mem_groupIds.mp (hnames g hg)) hinsert
  | merge a b => exact .merge h (mem_groupIds.mp hnames.1) (mem_groupIds.mp hnames.2)

theorem ByCalls.reachable [Quantity α] (h : m.ByCalls) : m.Reachable := by
  induction h with
  | empty rows => exact .empty rows
  | call _ x hnames hroom ih => exact ih.call hnames hroom

/-! ### What one call changes -/

/-- Two groups of the first memo are one in the second. -/
def Joins (m m' : Memo α) : Prop :=
  ∃ a ∈ m.groupIds, ∃ b ∈ m.groupIds, m.find a ≠ m.find b ∧ m'.find a = m'.find b

/-- The version tells whether anything has changed. -/
theorem Extends.version_lt (h : m.Extends m') (hne : m' ≠ m) : m.version < m'.version :=
  Nat.lt_of_le_of_ne h.version_le fun heq => hne (h.eq_of_version heq.symm)

theorem Extends.version_lt_of_grown (h : m.Extends m') (hgrown : m.size < m'.size ∨ m.Joins m') :
    m.version < m'.version := by
  apply h.version_lt
  rintro rfl
  rcases hgrown with hlt | ⟨a, -, b, -, hne, heq⟩
  · exact Nat.lt_irrefl _ hlt
  · exact hne heq

theorem merge_joins (hm : m.WellFormed) {a b : GroupId} (ha : a.n < m.groups.size)
    (hb : b.n < m.groups.size) (hlt : m.version < (m.merge a b).version) :
    m.Joins (m.merge a b) := by
  obtain ⟨-, -, hsame⟩ := merge_grows hm ha hb
  refine ⟨a, mem_groupIds.mpr ha, b, mem_groupIds.mpr hb, fun heq => ?_, hsame⟩
  rw [merge_eq, if_pos heq] at hlt
  exact Nat.lt_irrefl _ hlt

theorem Inserted.grows_by (hm : m.WellFormed) {n : Node} {gs : List GroupId}
    {target : Option GroupId} {id : NodeId} (h : m.Inserted n gs target id m')
    (htarget : ∀ g, target = some g → g.n < m.groups.size) (hlt : m.version < m'.version) :
    m.size < m'.size ∨ m.Joins m' := by
  cases h with
  | known _ => exact absurd hlt (Nat.lt_irrefl _)
  | @merged _ g _ _ hcurrent =>
    have hg := Nat.lt_of_le_of_lt (find_le hm.mergesDown g) (htarget g rfl)
    exact .inr (merge_joins hm (hm.groupOf_lt hcurrent) hg hlt)
  | joined _ => exact .inl (by simp [entered, size, Arena.size])
  | opened _ => exact .inl (by simp [entered, openGroup, size, Arena.size])

/-- The version grows with each new node and each two groups that become one. -/
theorem Reachable.version_lt_iff [Quantity α] (h : m.Reachable) {x : Call} (hnames : x.Names m)
    (hroom : m.size < Arena.capacity) :
    m.version < (x.after m).version ↔ m.size < (x.after m).size ∨ m.Joins (x.after m) := by
  have hm := h.wellFormed
  cases x with
  | merge a b =>
    obtain ⟨ha, hb⟩ := hnames.imp mem_groupIds.mp mem_groupIds.mp
    obtain ⟨-, hext, -⟩ := merge_grows hm ha hb
    exact ⟨fun hlt => .inr (merge_joins hm ha hb hlt), hext.version_lt_of_grown⟩
  | insert n target =>
    have htarget : ∀ g, target = some g → g.n < m.groups.size :=
      fun g hg => mem_groupIds.mp (hnames g hg)
    change m.version < (m.attempt n target).2.version ↔
      m.size < (m.attempt n target).2.size ∨ m.Joins (m.attempt n target).2
    cases hinsert : m.insert n target with
    | error e =>
      rw [attempt_of_error hm hroom hinsert]
      exact ⟨fun hlt => absurd hlt (Nat.lt_irrefl _), (Extends.refl m).version_lt_of_grown⟩
    | ok r =>
      rw [attempt_of_ok hm hinsert]
      have hends : Ends (fun _ => True) (m.insert n target) _ :=
        insert_ends hm (.inr fun _ => trivial)
      obtain ⟨gs, hgs, hinserted⟩ := hends.result hinsert
      have hgrown := hinserted.grown hm hgs htarget
      exact ⟨hinserted.grows_by hm htarget, hgrown.grows.version_lt_of_grown⟩

/-! ### Inserting again -/

theorem insert_of_known [Quantity α] (hdown : m.MergesDown) {n : Node} {gs : List GroupId}
    {target : Option GroupId} {id : NodeId} (hinputs : n.inputs.mapM m.groupOf = .ok gs)
    (hknown : m.digests[digestText n gs]? = some id)
    (htarget : ∀ g, target = some g → m.groupOf id = .ok (m.find g)) :
    m.insert n target = .ok (id, m) := by
  refine except_bind_eq_ok.mpr ⟨_, digest_eq_ok.mpr ⟨gs, hinputs, rfl⟩, ?_⟩
  rw [hknown]
  cases target with
  | none => rfl
  | some g =>
    refine except_bind_eq_ok.mpr ⟨_, htarget g rfl, ?_⟩
    rw [merge_eq, find_find hdown, if_pos rfl]
    rfl

theorem groupOf_entered_of_lt (hm : m.WellFormed) {n : Node} {d : String} {g : GroupId}
    {i : NodeId} (hi : i.n < m.size) : (m.entered n d g).groupOf i = m.groupOf i := by
  obtain ⟨h, hh⟩ := hm.exists_groupOf hi
  rw [hh]
  exact (groupOf_entered hm.homes_size).mpr (.inl hh)

namespace Inserted

variable {n : Node} {gs : List GroupId} {target : Option GroupId} {id : NodeId}

/-- The groups of older nodes change only when the node is known. -/
theorem size_eq_or_groupOf_eq (hm : m.WellFormed) (h : m.Inserted n gs target id m') :
    m'.size = m.size ∨ ∀ i : NodeId, i.n < m.size → m'.groupOf i = m.groupOf i := by
  cases h with
  | known _ => exact .inl rfl
  | merged _ _ => exact .inl (size_merge _ _)
  | joined _ => exact .inr fun i hi => groupOf_entered_of_lt hm hi
  | @opened rows _ =>
    refine .inr fun i hi => ?_
    rw [groupOf_entered_of_lt (hm.openGroup rows) hi, groupOf_openGroup]

/-- Inserting a node again changes nothing, unless the first time the group of one
    of its inputs has been merged away. -/
theorem again [Quantity α] (hm : m.WellFormed) (h : m.Inserted n gs target id m')
    (hinputs : n.inputs.mapM m.groupOf = .ok gs)
    (htarget : ∀ g, target = some g → g.n < m.groups.size) :
    m'.insert n target = .ok (id, m') ∨
      m'.size = m.size ∧ ∃ i ∈ n.inputs, m'.groupOf i ≠ m.groupOf i := by
  have hgrown := h.grown hm hinputs htarget
  by_cases hsame : ∀ i ∈ n.inputs, m'.groupOf i = m.groupOf i
  · rw [← mapM_congr hsame] at hinputs
    exact .inl (insert_of_known hgrown.wellFormed.mergesDown hinputs h.digest_known hgrown.groupOf)
  · right
    rw [not_forall₂] at hsame
    obtain ⟨i, hi, hne⟩ := hsame
    refine ⟨(h.size_eq_or_groupOf_eq hm).resolve_right fun heq => hne (heq i ?_), i, hi, hne⟩
    obtain ⟨g, -, hg⟩ := exists_of_forall₂_left (mapM_eq_ok.mp hinputs) i hi
    exact hm.lt_size_of_groupOf hg

end Inserted

/-- After any sequence of calls the groups partition the nodes.  While there is
    room, a failing insertion changes nothing, a repeated one changes nothing
    unless the first has merged the group of an input away, and the version grows
    exactly on calls that add a node or join two groups. -/
theorem ByCalls.stays_partitioned [Quantity α] (h : m.ByCalls) :
    m.Partitioned ∧ (m.size < Arena.capacity →
      (∀ n target e m', m.attempt n target = (.error e, m') → m' = m) ∧
      (∀ n target id m', (∀ g ∈ target, g ∈ m.groupIds) →
        m.attempt n target = (.ok id, m') →
        m'.attempt n target = (.ok id, m') ∨
          m'.size = m.size ∧ ∃ i ∈ n.inputs, m'.groupOf i ≠ m.groupOf i) ∧
      ∀ x : Call, x.Names m →
        (m.version < (x.after m).version ↔ m.size < (x.after m).size ∨ m.Joins (x.after m))) := by
  have hm := h.reachable.wellFormed
  refine ⟨hm.partitioned h.reachable.tidy, fun hroom => ⟨?_, ?_, ?_⟩⟩
  · intro n target e m' hfail
    cases hinsert : m.insert n target with
    | ok r =>
      rw [attempt_of_ok hm hinsert] at hfail
      cases hfail
    | error e' =>
      rw [attempt_of_error hm hroom hinsert] at hfail
      exact (congrArg Prod.snd hfail).symm
  · intro n target id m' hnames hdone
    have htarget : ∀ g, target = some g → g.n < m.groups.size :=
      fun g hg => mem_groupIds.mp (hnames g hg)
    cases hinsert : m.insert n target with
    | error e =>
      rw [attempt_of_error hm hroom hinsert] at hdone
      cases hdone
    | ok r =>
      rw [attempt_of_ok hm hinsert] at hdone
      cases hdone
      have hends : Ends (fun _ => True) (m.insert n target) _ :=
        insert_ends hm (.inr fun _ => trivial)
      obtain ⟨gs, hgs, hinserted⟩ := hends.result hinsert
      have hm' := (hinserted.grown hm hgs htarget).wellFormed
      exact (hinserted.again hm hgs htarget).imp_left (attempt_of_ok hm')
  · intro x hnames
    exact h.reachable.version_lt_iff hnames hroom

theorem byCalls_noRows : (noRows (100 : Float)).ByCalls := by
  have hfirst := ByCalls.call (.empty (100 : Float)) (.insert (Node.noRows .logical) none)
    (by simp [Call.Names]) (by decide)
  rw [Call.after, attempt_of_ok (wellFormed_empty _) (insert_empty _)] at hfirst
  exact hfirst

/-! ### A node that is entered twice -/

/-- Literal rows in two groups. -/
def twoGroups : Memo Float :=
  ((noRows 100).openGroup (estimateRows (Node.noRows .enumerable) [] 100)).2.entered
    (Node.noRows .enumerable) (digestText (Node.noRows .enumerable) []) ⟨1⟩

/-- The second rows are filtered, which is said to give the first ones. -/
def filteredAcross : Memo Float :=
  twoGroups.entered (Node.keepAll ⟨1⟩) (digestText (Node.keepAll ⟨1⟩) [⟨1⟩]) ⟨0⟩

/-- It is said to give the second rows too, which merges its input's group away. -/
def filteredAway : Memo Float := filteredAcross.merge ⟨0⟩ ⟨1⟩

/-- The filter has another digest then, and is entered once more. -/
def filteredTwice : Memo Float :=
  filteredAway.entered (Node.keepAll ⟨1⟩) (digestText (Node.keepAll ⟨1⟩) [⟨0⟩]) ⟨0⟩

theorem insert_twoGroups :
    (noRows (100 : Float)).insert (Node.noRows .enumerable) none = .ok (⟨1⟩, twoGroups) := by
  have hnone : (noRows (100 : Float)).digests[digestText (Node.noRows .enumerable) []]? = none := by
    have hne : digestText (Node.noRows .logical) [] ≠ digestText (Node.noRows .enumerable) [] := by
      decide
    simp [noRows, entered, openGroup, hne]
  refine except_bind_eq_ok.mpr ⟨digestText (Node.noRows .enumerable) [], rfl, ?_⟩
  rw [hnone]
  rfl

/-- No filter has been entered. -/
theorem digests_twoGroups (g : GroupId) :
    twoGroups.digests[digestText (Node.keepAll ⟨1⟩) [g]]? = none := by
  have hne (c : Convention) :
      digestText (Node.noRows c) [] ≠ digestText (Node.keepAll ⟨1⟩) [g] := by
    intro h
    obtain ⟨hkind, -⟩ := digestText_inj rfl rfl h
    cases hkind
  simp [twoGroups, noRows, entered, openGroup, hne]

theorem insert_filteredAcross :
    twoGroups.insert (Node.keepAll ⟨1⟩) (some ⟨0⟩) = .ok (⟨2⟩, filteredAcross) := by
  refine except_bind_eq_ok.mpr ⟨digestText (Node.keepAll ⟨1⟩) [⟨1⟩], rfl, ?_⟩
  rw [digests_twoGroups]
  rfl

theorem insert_filteredAway :
    filteredAcross.insert (Node.keepAll ⟨1⟩) (some ⟨1⟩) = .ok (⟨2⟩, filteredAway) := by
  have hknown : filteredAcross.digests[digestText (Node.keepAll ⟨1⟩) [⟨1⟩]]? = some ⟨2⟩ :=
    Std.TreeMap.getElem?_insert_self
  refine except_bind_eq_ok.mpr ⟨digestText (Node.keepAll ⟨1⟩) [⟨1⟩], rfl, ?_⟩
  rw [hknown]
  rfl

theorem insert_filteredTwice :
    filteredAway.insert (Node.keepAll ⟨1⟩) (some ⟨1⟩) = .ok (⟨3⟩, filteredTwice) := by
  have hnone : filteredAway.digests[digestText (Node.keepAll ⟨1⟩) [⟨0⟩]]? = none := by
    have hne : digestText (Node.keepAll ⟨1⟩) [⟨1⟩] ≠ digestText (Node.keepAll ⟨1⟩) [⟨0⟩] := by
      decide
    rw [filteredAway, digests_merge, filteredAcross, entered, getElem?_insert_of_ne hne,
      digests_twoGroups]
  refine except_bind_eq_ok.mpr ⟨digestText (Node.keepAll ⟨1⟩) [⟨0⟩], rfl, ?_⟩
  rw [hnone]
  rfl

theorem byCalls_filteredAcross : filteredAcross.ByCalls := by
  have hm := byCalls_noRows.reachable.wellFormed
  have htwo := byCalls_noRows.call (.insert (Node.noRows .enumerable) none) (by simp [Call.Names])
    (by decide)
  rw [Call.after, attempt_of_ok hm insert_twoGroups] at htwo
  have hacross := htwo.call (.insert (Node.keepAll ⟨1⟩) (some ⟨0⟩))
    (by simp [Call.Names, mem_groupIds, twoGroups, noRows, entered, openGroup]) (by decide)
  rw [Call.after, attempt_of_ok htwo.reachable.wellFormed insert_filteredAcross] at hacross
  exact hacross

theorem named_filteredAcross : (⟨1⟩ : GroupId) ∈ filteredAcross.groupIds := by
  simp [mem_groupIds, filteredAcross, twoGroups, noRows, entered, openGroup]

theorem attempt_filteredAway :
    filteredAcross.attempt (Node.keepAll ⟨1⟩) (some ⟨1⟩) = (.ok ⟨2⟩, filteredAway) :=
  attempt_of_ok byCalls_filteredAcross.reachable.wellFormed insert_filteredAway

theorem byCalls_filteredAway : filteredAway.ByCalls := by
  have haway := byCalls_filteredAcross.call (.insert (Node.keepAll ⟨1⟩) (some ⟨1⟩))
    (by simpa [Call.Names] using named_filteredAcross) (by decide)
  rwa [Call.after, attempt_filteredAway] at haway

/-- A known filter joins two groups.  With the name of the one that was merged away it is
    entered into the one that took over; inserting it again changes nothing, and neither
    does a filter over a node that is not there. -/
theorem stays_partitioned_filteredAway : filteredAcross.version < filteredAway.version ∧
    (⟨1⟩ : GroupId) ∈ filteredAway.groupIds ∧ filteredAway.isLive ⟨1⟩ = false ∧
    filteredAway.Partitioned ∧
    filteredAway.attempt (Node.keepAll ⟨1⟩) (some ⟨1⟩) = (.ok ⟨3⟩, filteredTwice) ∧
    filteredTwice.attempt (Node.keepAll ⟨1⟩) (some ⟨1⟩) = (.ok ⟨3⟩, filteredTwice) ∧
    filteredAway.version < filteredTwice.version ∧
    ∃ e, filteredAway.attempt (Node.keepAll ⟨9⟩) (some ⟨1⟩) = (.error e, filteredAway) := by
  obtain ⟨-, hacross⟩ := byCalls_filteredAcross.stays_partitioned
  obtain ⟨-, -, hjoins⟩ := hacross (by decide)
  have hjoined := hjoins (.insert (Node.keepAll ⟨1⟩) (some ⟨1⟩))
    (by simpa [Call.Names] using named_filteredAcross)
  rw [Call.after, attempt_filteredAway] at hjoined
  obtain ⟨hpartitioned, hcalls⟩ := byCalls_filteredAway.stays_partitioned
  obtain ⟨hfails, hagain, hversion⟩ := hcalls (by decide)
  have hm := byCalls_filteredAway.reachable.wellFormed
  have hnamed : (⟨1⟩ : GroupId) ∈ filteredAway.groupIds := by decide
  have htwice := attempt_of_ok hm insert_filteredTwice
  refine ⟨?_, hnamed, by decide, hpartitioned, htwice, ?_, ?_, ?_⟩
  · exact hjoined.mpr (.inr ⟨⟨0⟩, by decide, ⟨1⟩, named_filteredAcross, by decide, by decide⟩)
  · refine (hagain _ (some ⟨1⟩) _ _ (by simpa using hnamed) htwice).resolve_right ?_
    rintro ⟨hsize, -⟩
    exact absurd hsize (by decide)
  · have hgrown := hversion (.insert (Node.keepAll ⟨1⟩) (some ⟨1⟩))
      (by simpa [Call.Names] using hnamed)
    rw [Call.after, htwice] at hgrown
    exact hgrown.mpr (.inl (by decide))
  · have hmissing :
        (filteredAway.attempt (Node.keepAll ⟨9⟩) (some ⟨1⟩)).1 = .error (notInMemo ⟨9⟩) := rfl
    refine ⟨notInMemo ⟨9⟩, Prod.ext hmissing ?_⟩
    exact hfails _ (some ⟨1⟩) _ _ (Prod.ext hmissing rfl)

/-- The same insertion twice in a row: the first one answers the node that is
    there, the second one enters it again. -/
theorem attempt_filteredTwice : ∃ m : Memo Float, m.ByCalls ∧ (⟨1⟩ : GroupId) ∈ m.groupIds ∧
    ∃ m', m.attempt (Node.keepAll ⟨1⟩) (some ⟨1⟩) = (.ok ⟨2⟩, m') ∧
      (m'.attempt (Node.keepAll ⟨1⟩) (some ⟨1⟩)).1 = .ok ⟨3⟩ ∧
      (m'.attempt (Node.keepAll ⟨1⟩) (some ⟨1⟩)).2 ≠ m' := by
  have hsecond := attempt_of_ok byCalls_filteredAway.reachable.wellFormed insert_filteredTwice
  refine ⟨filteredAcross, byCalls_filteredAcross, named_filteredAcross, filteredAway,
    attempt_filteredAway, ?_, ?_⟩
  · rw [hsecond]
  · rw [hsecond]
    intro hsame
    exact absurd (congrArg size hsame) (by decide)

end Memo

end Polystore
