import Polystore.Proofs.ExactCosts
import Polystore.Proofs.Selection

/-
  Polystore/Proofs/Derivations.lean
  =================================
  **All the ways to meet a demand.**  A demand is met by a tree of members: one of
  the group in the convention, over trees for its inputs.  Groups may contain
  their own inputs, so there can be infinitely many trees.  But where a demand
  comes back below itself the tree can be cut without getting dearer, and on the
  paths of what is left there are no more demands than nodes in the memo
  (`exists_within`).
-/

namespace Polystore

/-- A finite tree that meets a demand: a member of the group in the convention, and
    a tree for each of its inputs in the convention in which it takes them. -/
inductive Derivation {α : Type} (m : Memo α) : Demand → Type
  | node {g : GroupId} {id : NodeId} {n : Node} {inputs : List GroupId}
    (h : m.Member g id n inputs)
    (below : ∀ i : Fin inputs.length, Derivation m (inputs.get i, n.inputConvention)) :
    Derivation m (g, n.convention)

namespace Derivation

variable {α : Type} {m : Memo α} {d d' : Demand}

/-- The costs of the nodes of a tree, each without its inputs. -/
def selfCosts [Quantity α] (s : CostSettings) : {d : Demand} → Derivation m d → List (Cost α)
  | _, @node _ _ g _ n inputs _ below =>
    m.ownCost s g n inputs :: (List.ofFn fun i => (below i).selfCosts s).flatten

/-- A demand is met somewhere in a tree. -/
def Has (d : Demand) : {d' : Demand} → Derivation m d' → Prop
  | _, @node _ _ g _ n _ _ below => d = (g, n.convention) ∨ ∃ i, (below i).Has d

/-- No demand comes back below itself. -/
def Simple : {d : Demand} → Derivation m d → Prop
  | _, @node _ _ g _ n _ _ below => ∀ i, ¬ (below i).Has (g, n.convention) ∧ (below i).Simple

/-- A tree has at most so many levels. -/
def Within : {d : Demand} → Derivation m d → Nat → Prop
  | _, node _ _, 0 => False
  | _, node _ below, k + 1 => ∀ i, (below i).Within k

theorem has_root (t : Derivation m d) : t.Has d := by
  cases t with
  | node h below => exact .inl rfl

end Derivation

/-! ### Demands on a path -/

namespace Memo

variable {α : Type} {m : Memo α}

/-- The memo has a node of the group in the convention. -/
def Delivers (m : Memo α) (d : Demand) : Prop :=
  ∃ id n, m.groupOf id = .ok d.1 ∧ m.node id = .ok n ∧ n.convention = d.2

theorem Member.delivers (hm : m.WellFormed) {g : GroupId} {id : NodeId} {n : Node}
    {inputs : List GroupId} (h : m.Member g id n inputs) : m.Delivers (g, n.convention) := by
  have hgroup := (hm.mem_members_iff g id).mp h.mem
  rw [find_of_none (isLive_iff.mp h.live).2] at hgroup
  exact ⟨id, n, hgroup, h.node, rfl⟩

/-- There are no more demands than nodes, because a node delivers only one. -/
theorem length_le_size_of_delivers {ds : List Demand} (hnodup : ds.Nodup)
    (h : ∀ d ∈ ds, m.Delivers d) : ds.length ≤ m.size := by
  have hchoice : ∀ d, ∃ id : NodeId, d ∈ ds → ∃ n, m.groupOf id = .ok d.1 ∧ m.node id = .ok n ∧
      n.convention = d.2 := by
    intro d
    by_cases hd : d ∈ ds
    · obtain ⟨id, n, hn⟩ := h d hd
      exact ⟨id, fun _ => ⟨n, hn⟩⟩
    · exact ⟨⟨0⟩, fun hd' => absurd hd' hd⟩
  choose f hf using hchoice
  have hinj : ∀ d ∈ ds, ∀ d' ∈ ds, (f d).n = (f d').n → d = d' := by
    intro d hd d' hd' heq
    obtain ⟨n, hgroup, hn, hc⟩ := hf d hd
    obtain ⟨n', hgroup', hn', hc'⟩ := hf d' hd'
    have hid : f d = f d' := congrArg NodeId.mk heq
    rw [hid] at hgroup hn
    obtain rfl : n = n' := Except.ok.inj (hn.symm.trans hn')
    exact Prod.ext (Except.ok.inj (hgroup.symm.trans hgroup')) (hc.symm.trans hc')
  have hsub : ds.map (fun d => (f d).n) ⊆ List.range m.size := by
    intro k hk
    obtain ⟨d, hd, rfl⟩ := List.mem_map.mp hk
    obtain ⟨n, -, hn, -⟩ := hf d hd
    exact List.mem_range.mpr (Arena.lt_size_of_get hn)
  have hle := ((hnodup.map_on hinj).subperm hsub).length_le
  rwa [List.length_map, List.length_range] at hle

end Memo

namespace Derivation

variable {α : Type} {m : Memo α} {d d' : Demand}

/-- A tree in which no demand comes back below itself, nor those above it, is not
    deeper than the nodes go round. -/
theorem Simple.within (hm : m.WellFormed) {t : Derivation m d} (h : t.Simple) {above : List Demand}
    (hnodup : above.Nodup) (hdelivers : ∀ d' ∈ above, m.Delivers d' ∧ ¬ t.Has d') {k : Nat}
    (hk : m.size ≤ above.length + k) : t.Within k := by
  induction t generalizing above k with
  | @node g id n inputs hmember below ih =>
    have hnew : (g, n.convention) ∉ above := fun hd => (hdelivers _ hd).2 (has_root _)
    have hnodup' : ((g, n.convention) :: above).Nodup := List.nodup_cons.mpr ⟨hnew, hnodup⟩
    have hall : ∀ d' ∈ (g, n.convention) :: above, m.Delivers d' :=
      List.forall_mem_cons.mpr ⟨hmember.delivers hm, fun d' hd => (hdelivers d' hd).1⟩
    have hlength := Memo.length_le_size_of_delivers hnodup' hall
    rw [List.length_cons] at hlength
    obtain ⟨k, rfl⟩ : ∃ k', k = k' + 1 := ⟨k - 1, by omega⟩
    intro i
    obtain ⟨hnot, hsimple⟩ := h i
    refine ih i hsimple hnodup' (List.forall_mem_cons.mpr ⟨⟨hall _ (by simp), hnot⟩, ?_⟩) ?_
    · intro d' hd
      exact ⟨(hdelivers d' hd).1, fun hbelow => (hdelivers d' hd).2 (.inr ⟨i, hbelow⟩)⟩
    · rw [List.length_cons]
      omega

end Derivation

/-! ### Cutting trees -/

section

variable {m : Memo ℝ} {s : CostSettings}

/-- Where estimates are not negative, no node has a negative cost. -/
theorem Memo.ownCost_value_nonneg (hs : s.NonNegative) (hrows : ∀ g, 0 ≤ m.rows g) (g : GroupId)
    (n : Node) (inputs : List GroupId) : 0 ≤ (m.ownCost s g n inputs).value s := by
  refine (selfCost_nonNegative hs n (fun x hx => ?_) (hrows g)).value_nonneg hs
  obtain ⟨h, -, rfl⟩ := List.mem_map.mp hx
  exact hrows h

namespace Derivation

variable {d d' : Demand}

/-- The summed costs of the nodes of a tree. -/
noncomputable def cost (s : CostSettings) (t : Derivation m d) : Cost ℝ := (t.selfCosts s).sum

theorem cost_node {g : GroupId} {id : NodeId} {n : Node} {inputs : List GroupId}
    (h : m.Member g id n inputs)
    (below : ∀ i : Fin inputs.length, Derivation m (inputs.get i, n.inputConvention)) :
    (node h below).cost s = ∑ i, (below i).cost s + m.ownCost s g n inputs := by
  rw [cost, selfCosts, List.sum_cons, List.sum_flatten, List.map_ofFn, List.sum_ofFn, add_comm]
  rfl

theorem value_node {g : GroupId} {id : NodeId} {n : Node} {inputs : List GroupId}
    (h : m.Member g id n inputs)
    (below : ∀ i : Fin inputs.length, Derivation m (inputs.get i, n.inputConvention)) :
    ((node h below).cost s).value s =
      ∑ i, ((below i).cost s).value s + (m.ownCost s g n inputs).value s := by
  rw [cost_node, Cost.value_add, Cost.value_sum]

variable (hs : s.NonNegative) (hrows : ∀ g, 0 ≤ m.rows g)

include hs hrows

theorem value_nonneg (t : Derivation m d) : 0 ≤ (t.cost s).value s := by
  induction t with
  | @node g id n inputs h below ih =>
    rw [value_node]
    have hown := Memo.ownCost_value_nonneg hs hrows g n inputs
    have hbelow := Finset.sum_nonneg fun i (_ : i ∈ Finset.univ) => ih i
    exact add_nonneg hbelow hown

/-- What is below a node costs no more than all. -/
theorem value_below_le {g : GroupId} {id : NodeId} {n : Node} {inputs : List GroupId}
    (h : m.Member g id n inputs)
    (below : ∀ i : Fin inputs.length, Derivation m (inputs.get i, n.inputConvention))
    (i : Fin inputs.length) :
    ((below i).cost s).value s ≤ ((node h below).cost s).value s := by
  rw [value_node]
  have hown := Memo.ownCost_value_nonneg hs hrows g n inputs
  have hle := Finset.single_le_sum (f := fun i => ((below i).cost s).value s)
    (fun j _ => value_nonneg hs hrows (below j)) (Finset.mem_univ i)
  exact hle.trans (le_add_of_nonneg_right hown)

/-- The part of a tree that meets a demand costs no more than the tree. -/
theorem exists_part {t : Derivation m d'} (h : t.Has d) (hsimple : t.Simple) :
    ∃ t' : Derivation m d, t'.Simple ∧ (t'.cost s).value s ≤ (t.cost s).value s := by
  induction t with
  | @node g id n inputs hmember below ih =>
    rcases h with rfl | ⟨i, hi⟩
    · exact ⟨node hmember below, hsimple, le_refl _⟩
    · obtain ⟨t', hsimple', hle⟩ := ih i hi (hsimple i).2
      exact ⟨t', hsimple', hle.trans (value_below_le hs hrows hmember below i)⟩

/-- A tree can be cut until no demand comes back below itself. -/
theorem exists_simple (t : Derivation m d) :
    ∃ t' : Derivation m d, t'.Simple ∧ (t'.cost s).value s ≤ (t.cost s).value s := by
  induction t with
  | @node g id n inputs h below ih =>
    choose cut hsimple hle using ih
    have hsum : ((node h cut).cost s).value s ≤ ((node h below).cost s).value s := by
      rw [value_node, value_node]
      exact add_le_add_left (Finset.sum_le_sum fun i _ => hle i) _
    by_cases hback : ∃ i, (cut i).Has (g, n.convention)
    · rcases hback with ⟨i, hi⟩
      obtain ⟨t', hsimple', hle'⟩ := exists_part hs hrows hi (hsimple i)
      exact ⟨t', hsimple', (hle'.trans (value_below_le hs hrows h cut i)).trans hsum⟩
    · exact ⟨node h cut, fun i => ⟨fun hi => hback ⟨i, hi⟩, hsimple i⟩, hsum⟩

/-- Trees that are not deeper than there are nodes are enough. -/
theorem exists_within (hm : m.WellFormed) (t : Derivation m d) {k : Nat} (hk : m.size ≤ k) :
    ∃ t' : Derivation m d, t'.Within k ∧ (t'.cost s).value s ≤ (t.cost s).value s := by
  obtain ⟨t', hsimple, hle⟩ := exists_simple hs hrows t
  exact ⟨t', hsimple.within hm List.nodup_nil (by simp) (by simpa using hk), hle⟩

end Derivation

end

end Polystore
