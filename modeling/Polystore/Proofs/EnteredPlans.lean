import Polystore.Proofs.BuiltPlans
import Polystore.Proofs.Digests
import Polystore.Proofs.Growth

/-
  Polystore/Proofs/EnteredPlans.lean
  ==================================
  **A plan in a memo.**  The nodes of a chain are entered from the bottom to the
  root, each over the copy of the one below it.  What holds of an empty memo and
  is kept when a node is entered over a copy holds of the memo of the plan, and
  nothing can go wrong, because there is room for what a plan has room for
  (`Chain.ofPlan_ends`).
-/

namespace Polystore

theorem Node.withInputs_nil (n : Node) : n.withInputs [] = n := by
  rcases n with ⟨op, traits, row, native⟩
  cases op <;> rfl

namespace Plan.Chain

variable {known : TableRef → Prop} {p : Plan} {α : Type} [Quantity α]

theorem inputs_zero (hp : p.Chain known) {n : Node} (h : p.arena.get ⟨0⟩ = .ok n) :
    n.inputs = [] := by
  cases hp.bottom n h with
  | scan hop _ => simp [Node.inputs, hop, RelOp.inputs]
  | values hop => simp [Node.inputs, hop, RelOp.inputs]

theorem inputs_succ (hp : p.Chain known) {k : Nat} {n : Node}
    (h : p.arena.get ⟨k + 1⟩ = .ok n) : n.inputs = [⟨k⟩] := by
  obtain ⟨below, -, hon⟩ := hp.above k n h
  cases hon with
  | filter hop _ => simp [Node.inputs, hop, RelOp.inputs]
  | project hop => simp [Node.inputs, hop, RelOp.inputs]
  | aggregate hop _ => simp [Node.inputs, hop, RelOp.inputs]
  | sort hop _ => simp [Node.inputs, hop, RelOp.inputs]
  | modify hop => simp [Node.inputs, hop, RelOp.inputs]

/-- Walking down from a node visits all nodes below it. -/
theorem exists_descend (hp : p.Chain known) {k : Nat} (hk : k < p.arena.size) :
    ∃ ids, p.arena.descend (k + 1) ⟨k⟩ = .ok ids ∧ ∀ j ≤ k, ⟨j⟩ ∈ ids := by
  induction k with
  | zero =>
    obtain ⟨n, hn⟩ : ∃ n, p.arena.get ⟨0⟩ = .ok n := Arena.exists_get hk
    refine ⟨[⟨0⟩], ?_, fun j hj => by simp_all⟩
    rw [Arena.descend]
    refine except_bind_eq_ok.mpr ⟨n, hn, except_bind_eq_ok.mpr ⟨[], ?_, rfl⟩⟩
    rw [hp.inputs_zero hn]
    rfl
  | succ k ih =>
    obtain ⟨ids, hids, hmem⟩ := ih (Nat.lt_of_succ_lt hk)
    obtain ⟨n, hn⟩ : ∃ n, p.arena.get ⟨k + 1⟩ = .ok n := Arena.exists_get hk
    refine ⟨⟨k + 1⟩ :: ids, ?_, fun j hj => ?_⟩
    · rw [Arena.descend]
      refine except_bind_eq_ok.mpr ⟨n, hn, except_bind_eq_ok.mpr ⟨[ids], ?_, by simp; rfl⟩⟩
      rw [hp.inputs_succ hn]
      exact mapM_eq_ok.mpr (.cons hids .nil)
    · rcases Nat.lt_or_eq_of_le hj with hj | rfl
      · exact List.mem_cons_of_mem _ (hmem j (by omega))
      · exact List.mem_cons_self

/-- The numbers of the nodes from one on. -/
def idsFrom (p : Plan) (k : Nat) : List NodeId := (List.range' k (p.arena.size - k)).map .mk

/-- All nodes of a chain are reachable. -/
theorem exists_preorder (hp : p.Chain known) : ∃ reachable, p.preorder = .ok reachable ∧
    p.arena.ids.filter reachable.contains = idsFrom p 0 := by
  have hsize := hp.size_eq
  obtain ⟨ids, hids, hmem⟩ := hp.exists_descend (k := p.root.n) (by omega)
  refine ⟨ids, hids, ?_⟩
  rw [idsFrom, Nat.sub_zero, ← List.range_eq_range']
  apply List.filter_eq_self.mpr
  intro id hid
  obtain ⟨j, hj, rfl⟩ := List.mem_map.mp hid
  rw [List.contains_iff_mem]
  exact hmem j (by have := List.mem_range.mp hj; omega)

/-- What entering the nodes of a plan carries along: something about the memo, and
    something about the copy of each node. -/
structure Carries (p : Plan) (I : Memo α → Prop) (At : Nat → NodeId → Memo α → Prop) : Prop where
  bottom : ∀ {m m' : Memo α} {n gs id}, m = { defaultRows := m.defaultRows } → m.WellFormed →
    I m → p.arena.get ⟨0⟩ = .ok n → n.inputs.mapM m.groupOf = .ok gs →
    m.Inserted n gs none id m' → I m' ∧ At 0 id m'
  above : ∀ {m m' : Memo α} {k n below gs id}, m.WellFormed → I m → At k below m →
    below.n < m.size → p.arena.get ⟨k + 1⟩ = .ok n →
    (n.withInputs [below]).inputs.mapM m.groupOf = .ok gs →
    m.Inserted (n.withInputs [below]) gs none id m' → I m' ∧ At (k + 1) id m'

variable {I : Memo α → Prop} {At : Nat → NodeId → Memo α → Prop}

theorem lookup_bottom {copies : List (NodeId × NodeId)} {n : Node} (hp : p.Chain known)
    (hn : p.arena.get ⟨0⟩ = .ok n) :
    n.inputs.mapM (fun i => require (Memo.inputMissing i ⟨0⟩) (copies.lookup i)) = .ok [] := by
  rw [hp.inputs_zero hn]
  rfl

/-- Entering the nodes from one on, when the one below it has been entered. -/
theorem enterNodes_ends (hp : p.Chain known) (hcarries : Carries p I At) {E : Error → Prop}
    {k : Nat} (hk : k < p.arena.size) {m : Memo α} {copies : List (NodeId × NodeId)} {c : NodeId}
    (hm : m.WellFormed) (hroom : m.size ≤ k + 1) (hI : I m) (hcopy : copies.lookup ⟨k⟩ = some c)
    (hc : c.n < m.size) (hat : At k c m) :
    Ends E (Memo.enterNodes p.arena m copies (idsFrom p (k + 1))) fun r =>
      r.1.WellFormed ∧ I r.1 ∧ ∃ c, r.2.lookup p.root = some c ∧ c.n < r.1.size ∧
        At p.root.n c r.1 := by
  have hsize := hp.size_eq
  obtain ⟨len, hlen⟩ : ∃ len, p.arena.size - (k + 1) = len := ⟨_, rfl⟩
  induction len generalizing k m copies c with
  | zero =>
    have hroot : p.root = ⟨k⟩ := by
      have heq : p.root.n = k := by omega
      cases hr : p.root
      simp_all
    rw [idsFrom, hlen]
    refine Ends.pure ⟨hm, hI, c, ?_, hc, ?_⟩
    · rw [hroot]
      exact hcopy
    · rw [hroot]
      exact hat
  | succ len ih =>
    obtain ⟨n, hn⟩ : ∃ n, p.arena.get ⟨k + 1⟩ = .ok n := Arena.exists_get (by simp only; omega)
    have hids : idsFrom p (k + 1) = ⟨k + 1⟩ :: idsFrom p (k + 2) := by
      rw [idsFrom, hlen, List.range'_succ, List.map_cons, idsFrom,
        show p.arena.size - (k + 2) = len by omega]
    have hinputs := hp.inputs_succ hn
    have hlookup : n.inputs.mapM (fun i => require (Memo.inputMissing i ⟨k + 1⟩)
        (copies.lookup i)) = .ok [c] := by
      rw [hinputs]
      exact mapM_eq_ok.mpr (.cons (require_eq_ok.mpr hcopy) .nil)
    have hinputs' : (n.withInputs [c]).inputs = [c] := by
      refine Node.inputs_withInputs ?_
      rw [hinputs]
      rfl
    rw [hids]
    refine Ends.after hn (Ends.after hlookup ?_)
    have hvalid : ∀ i ∈ (n.withInputs [c]).inputs, i.n < m.size := by
      rw [hinputs']
      intro i hi
      exact List.mem_singleton.mp hi ▸ hc
    have hle := hp.size_le
    apply (Memo.insert_ends hm (.inl ⟨hvalid, .inl (by omega)⟩)).bind
    intro r hr
    rcases hr with ⟨gs, hgs, hinserted⟩
    have hgrown := hinserted.grown hm hgs (by simp)
    obtain ⟨hI', hat'⟩ := hcarries.above hm hI hat hc hn hgs hinserted
    exact ih (by omega) hgrown.wellFormed (Nat.le_trans hinserted.size_le (by omega)) hI' (by simp)
      hgrown.keeps.lt_size hat' (by omega)

theorem ofPlan_ends (hp : p.Chain known) (hcarries : Carries p I At) {E : Error → Prop}
    (rows : α) (hI : I { defaultRows := rows }) :
    Ends E (Memo.ofPlan p rows) fun r => r.1.WellFormed ∧ I r.1 ∧
      ∃ c, r.1.groupOf c = .ok r.2 ∧ At p.root.n c r.1 := by
  have hsize := hp.size_eq
  obtain ⟨reachable, hreachable, hids⟩ := hp.exists_preorder
  obtain ⟨n, hn⟩ : ∃ n, p.arena.get ⟨0⟩ = .ok n := Arena.exists_get (by simp only; omega)
  have hids' : idsFrom p 0 = ⟨0⟩ :: idsFrom p 1 := by
    obtain ⟨len, hlen⟩ : ∃ len, p.arena.size = len + 1 := ⟨_, hsize⟩
    rw [idsFrom, Nat.sub_zero, hlen, List.range'_succ, List.map_cons, idsFrom, hlen,
      Nat.add_sub_cancel]
  have hvalid : ∀ i ∈ n.inputs, i.n < ({ defaultRows := rows } : Memo α).size := by
    rw [hp.inputs_zero hn]
    simp
  have hempty := Memo.wellFormed_empty rows
  have hrest : Ends E (Memo.enterNodes p.arena { defaultRows := rows } [] (idsFrom p 0)) fun r =>
      r.1.WellFormed ∧ I r.1 ∧ ∃ c, r.2.lookup p.root = some c ∧ c.n < r.1.size ∧
        At p.root.n c r.1 := by
    rw [hids']
    refine Ends.after hn (Ends.after (hp.lookup_bottom hn) ?_)
    rw [Node.withInputs_nil]
    have hroom : 0 < Arena.capacity := by decide
    apply (Memo.insert_ends hempty (.inl ⟨hvalid, .inl hroom⟩)).bind
    intro r hr
    rcases hr with ⟨gs, hgs, hinserted⟩
    have hgrown := hinserted.grown hempty hgs (by simp)
    obtain ⟨hI', hat⟩ := hcarries.bottom rfl hempty hI hn hgs hinserted
    exact enterNodes_ends hp hcarries (by omega) hgrown.wellFormed hinserted.size_le hI' (by simp)
      hgrown.keeps.lt_size hat
  refine Ends.after hreachable ?_
  rw [hids]
  apply hrest.bind
  intro r hr
  rcases hr with ⟨hm, hI', c, hc, hlt, hat⟩
  obtain ⟨g, hg⟩ := hm.exists_groupOf hlt
  exact Ends.after (require_eq_ok.mpr hc) (Ends.after hg (Ends.pure ⟨hm, hI', c, hg, hat⟩))

end Plan.Chain

/-! ### The nodes of the plan -/

theorem Node.withInputs_self (n : Node) : n.withInputs n.inputs = n := by
  rcases n with ⟨op, traits, row, native⟩
  cases op <;> rfl

namespace Memo

variable {α : Type} {m m' : Memo α} {known : TableRef → Prop} {p : Plan} {k : Nat}

/-- A memo has the nodes of a plan up to one, and nothing else: each under its number, in
    a group of its own, where it is known. -/
structure Copies (m : Memo α) (p : Plan) (k : Nat) : Prop where
  size_eq : m.size = k + 1
  groups_eq : m.groups.size = k + 1
  node : ∀ j ≤ k, m.node ⟨j⟩ = p.arena.get ⟨j⟩
  groupOf : ∀ j ≤ k, m.groupOf ⟨j⟩ = .ok ⟨j⟩
  known : ∀ j ≤ k, ∀ n, p.arena.get ⟨j⟩ = .ok n →
    m.digests[digestText n (n.inputs.map fun i => ⟨i.n⟩)]? = some ⟨j⟩

/-- The last node has no node on it, so the next one is not known yet. -/
theorem Copies.next_new (h : m.Copies p k) (hm : m.WellFormed) {n : Node} (hn : n.inputs = [⟨k⟩]) :
    m.digests[digestText n [⟨k⟩]]? = none := by
  cases hknown : m.digests[digestText n [⟨k⟩]]? with
  | none => rfl
  | some i =>
    obtain ⟨n', gs, hn', hd, hgs⟩ := hm.digests _ _ hknown
    have hlength : gs.length = n'.inputs.length := by
      rw [(mapM_eq_ok.mp hgs).length_eq, List.length_map]
    obtain ⟨-, -, rfl⟩ := digestText_inj hlength (by rw [hn]; rfl) hd
    have hlive : m.find ⟨k⟩ = ⟨k⟩ := hm.find_of_groupOf (h.groupOf k (Nat.le_refl k))
    rw [List.map_singleton, hlive] at hgs
    obtain ⟨j, hj, hgroup⟩ := exists_of_forall₂_right (mapM_eq_ok.mp hgs) ⟨k⟩ (by simp)
    -- that node would be younger than the last one
    have holder := hm.inputs_older i n' hn' j hj
    have hlt : i.n < m.size := Arena.lt_size_of_get hn'
    have hsize := h.size_eq
    have hown : (⟨j.n⟩ : GroupId) = ⟨k⟩ :=
      Except.ok.inj ((h.groupOf j.n (by omega)).symm.trans hgroup)
    have heq := congrArg GroupId.n hown
    simp only at heq
    omega

theorem Inserted.copies (hm : m.WellFormed) {k : Nat} (hsize : m.size = k)
    (hgroups : m.groups.size = k) {n : Node} {id : NodeId} {gs : List GroupId}
    (hgs : gs = n.inputs.map fun i => ⟨i.n⟩) (hnew : m.digests[digestText n gs]? = none)
    (hn : p.arena.get ⟨k⟩ = .ok n) (hinserted : m.Inserted n gs none id m')
    (hnode : ∀ j < k, m.node ⟨j⟩ = p.arena.get ⟨j⟩)
    (hgroupOf : ∀ j < k, m.groupOf ⟨j⟩ = .ok ⟨j⟩)
    (hknown : ∀ j < k, ∀ n, p.arena.get ⟨j⟩ = .ok n →
      m.digests[digestText n (n.inputs.map fun i => ⟨i.n⟩)]? = some ⟨j⟩) :
    id = ⟨k⟩ ∧ m'.Copies p k := by
  subst hsize hgs
  cases hinserted with
  | known hknown => cases hnew.symm.trans hknown
  | @opened rows hroom _ =>
    have hext : m.Extends ((m.openGroup rows).2.entered n _ (m.openGroup rows).1) :=
      opened_extends hnew
    refine ⟨rfl, by simp [entered, openGroup, size, Arena.size],
      by simp [entered, openGroup, hgroups], fun j hj => ?_, fun j hj => ?_, fun j hj k hk => ?_⟩
    · rcases Nat.lt_or_eq_of_le hj with hlt | rfl
      · obtain ⟨k, hk⟩ : ∃ k, m.node ⟨j⟩ = .ok k := exists_node hlt
        rw [← hnode j hlt, hk]
        exact hext.node _ _ hk
      · rw [hn]
        exact Arena.get_push_self
    · refine (groupOf_entered (hm.openGroup rows).homes_size).mpr ?_
      rcases Nat.lt_or_eq_of_le hj with hlt | rfl
      · exact .inl ((groupOf_openGroup _).trans (hgroupOf j hlt))
      · refine .inr ⟨rfl, (find_of_none (isLive_iff.mp isLive_openGroup).2).trans ?_⟩
        exact congrArg GroupId.mk hgroups
    · rcases Nat.lt_or_eq_of_le hj with hlt | rfl
      · exact hext.digests _ _ (hknown j hlt k hk)
      · obtain rfl : n = k := Except.ok.inj (hn.symm.trans hk)
        exact Std.TreeMap.getElem?_insert_self

/-- The memo of a plan is a copy of the plan. -/
theorem ofPlan_copies [Quantity α] (hp : p.Chain known) (rows : α) :
    Ends (fun _ => False) (ofPlan p rows) fun r => r.1.Copies p p.root.n := by
  have hcarries : Plan.Chain.Carries p (fun _ : Memo α => True) fun k id m =>
      id = ⟨k⟩ ∧ m.Copies p k := by
    refine ⟨fun {m m' n gs id} hempty hm _ hn hgs hinserted => ⟨trivial, ?_⟩,
      fun {m m' k n below gs id} hm _ hat _ hn hgs hinserted => ⟨trivial, ?_⟩⟩
    · rw [hp.inputs_zero hn] at hgs
      obtain rfl := Except.ok.inj hgs
      have hnew : m.digests[digestText n []]? = none := by
        rw [hempty]
        exact Std.TreeMap.getElem?_emptyc
      refine hinserted.copies hm (by rw [hempty]; rfl) (by rw [hempty]; rfl) ?_ hnew hn (by simp)
        (by simp) (by simp)
      rw [hp.inputs_zero hn]
      rfl
    · rcases hat with ⟨rfl, hcopies⟩
      have hinputs := hp.inputs_succ hn
      rw [← hinputs, Node.withInputs_self, hinputs] at hgs
      rw [← hinputs, Node.withInputs_self] at hinserted
      have hsingle : [(⟨k⟩ : NodeId)].mapM m.groupOf = .ok [⟨k⟩] :=
        mapM_eq_ok.mpr (.cons (hcopies.groupOf k (Nat.le_refl k)) .nil)
      obtain rfl := Except.ok.inj (hgs.symm.trans hsingle)
      exact hinserted.copies hm hcopies.size_eq hcopies.groups_eq (by rw [hinputs]; rfl)
        (hcopies.next_new hm hinputs) hn (fun j hj => hcopies.node j (by omega))
        (fun j hj => hcopies.groupOf j (by omega)) fun j hj => hcopies.known j (by omega)
  exact (hp.ofPlan_ends hcarries rows trivial).imp fun _ ⟨_, _, _, _, _, hcopies⟩ => hcopies

end Memo

/-! ### The plan without rows -/

/-- Literal rows, none of them. -/
def Node.noRows (c : Convention) : Node := ⟨.values [], { convention := c }, ⟨[]⟩, none⟩

/-- The plan of no rows. -/
def Plan.noRows : Plan := ⟨⟨#[Node.noRows .logical]⟩, ⟨0⟩⟩

theorem Plan.noRows_built {known : TableRef → Prop} : Plan.noRows.Built known := by
  have hvalues : Plan.values ⟨[]⟩ [] = .ok Plan.noRows := rfl
  exact .values hvalues

namespace Memo

/-- The memo of the plan of no rows. -/
def noRows {α : Type} [Quantity α] (rows : α) : Memo α :=
  (({ defaultRows := rows } : Memo α).openGroup (Quantity.ofNat 0)).2.entered
    (Node.noRows .logical) (digestText (Node.noRows .logical) []) ⟨0⟩

theorem insert_empty {α : Type} [Quantity α] (rows : α) :
    ({ defaultRows := rows } : Memo α).insert (Node.noRows .logical) none =
      .ok (⟨0⟩, noRows rows) := by
  refine except_bind_eq_ok.mpr ⟨_, rfl, ?_⟩
  rw [Std.TreeMap.getElem?_emptyc]
  rfl

end Memo

end Polystore
