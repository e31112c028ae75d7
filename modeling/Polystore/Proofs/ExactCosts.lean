import Mathlib.Analysis.SpecialFunctions.Log.Base
import Polystore.Proofs.Growth

/-
  Polystore/Proofs/ExactCosts.lean
  ================================
  **Costs as exact numbers.**  The formulas of the cost model are read over the
  reals: a double stands for the number it denotes, and nothing is rounded.  Then
  costs add up in any order, and where weights, factors and row estimates are not
  negative no cost is (`ownCost_value_nonneg`).
-/

namespace Polystore

/-- The real number that a double stands for, if it stands for one. -/
noncomputable def Number.Parts.real : Number.Parts → ℝ
  | .finite negative significand exponent =>
    Number.signed negative significand * (2 : ℝ) ^ exponent
  | _ => 0

noncomputable instance Quantity.exact : Quantity ℝ where
  ofNat n := n
  ofFloat x := (Number.parts x).real
  less a b := decide (a < b)
  larger := max
  smaller := min
  log2 := Real.logb 2

/-! ### Row estimates -/

theorem conjunctSelectivity_nonneg (condition : Expr) :
    (0 : ℝ) ≤ conjunctSelectivity condition := by
  unfold conjunctSelectivity
  split <;> norm_num

theorem selectivity_nonneg (condition : Expr) : (0 : ℝ) ≤ selectivity condition := by
  have hfold : ∀ (l : List Expr) (start : ℝ), 0 ≤ start →
      0 ≤ l.foldl (fun s c => s * conjunctSelectivity c) start := by
    intro l
    induction l with
    | nil => exact fun _ h => h
    | cons c l ih => exact fun start h => ih _ (mul_nonneg h (conjunctSelectivity_nonneg c))
  exact hfold _ _ (by norm_num)

theorem aggregateRows_nonneg (a : Aggregation) (input : ℝ) : 0 ≤ aggregateRows a input := by
  have hsets : (0 : ℝ) ≤ (max a.sets.length 1 : ℕ) := Nat.cast_nonneg _
  have hgroups : (0 : ℝ) ≤ groupCount input := by
    have hone : (0 : ℝ) ≤ (1.0 : ℝ) := by norm_num
    exact le_min (hone.trans (le_max_right _ _)) (hone.trans (le_max_right _ _))
  unfold aggregateRows
  split
  · exact hsets
  · exact mul_nonneg hgroups hsets

theorem windowRows_nonneg (o : Ordered) (input : ℝ) : 0 ≤ windowRows o input := by
  have hrest : (0 : ℝ) ≤ max (input - (o.offset.getD 0 : ℕ)) (0.0 : ℝ) :=
    le_trans (by norm_num) (le_max_right _ _)
  unfold windowRows
  split
  · exact le_min hrest (Nat.cast_nonneg _)
  · exact hrest

/-- A node is no scan of a table with a negative statistic. -/
def Node.Counted (n : Node) : Prop :=
  ∀ t x, n.op = .scan t → t.rows = some x → 0 ≤ (Quantity.ofFloat x : ℝ)

theorem estimateRows_nonneg {n : Node} (hn : n.Counted) {inputRows : List ℝ} {default : ℝ}
    (hinputs : ∀ x ∈ inputRows, 0 ≤ x) (hdefault : 0 ≤ default) :
    0 ≤ estimateRows n inputRows default := by
  have hinput : 0 ≤ inputRows.headD default := by
    cases inputRows with
    | nil => exact hdefault
    | cons x _ => exact hinputs x (by simp)
  unfold estimateRows outputRows
  cases hop : n.op with
  | scan t =>
    cases hrows : t.rows with
    | none => simpa [hrows] using hdefault
    | some x => simpa [hrows] using hn t x hop hrows
  | filter _ condition => exact mul_nonneg hinput (selectivity_nonneg condition)
  | project _ _ => exact hinput
  | converter _ _ => exact hinput
  | aggregate _ a => exact aggregateRows_nonneg a _
  | sort _ o => exact windowRows_nonneg o _
  | values tuples => exact Nat.cast_nonneg _
  | modify _ _ _ => norm_num

/-! ### Costs -/

namespace Cost

/-- No part of a cost is negative. -/
structure NonNegative (c : Cost ℝ) : Prop where
  rows : 0 ≤ c.rows
  cpu : 0 ≤ c.cpu
  io : 0 ≤ c.io

theorem add_def (a b : Cost ℝ) : a + b = ⟨a.rows + b.rows, a.cpu + b.cpu, a.io + b.io⟩ := rfl

theorem zero_def : (zero : Cost ℝ) = ⟨0, 0, 0⟩ := by
  rw [zero]
  norm_num

noncomputable instance : Zero (Cost ℝ) := ⟨zero⟩

/-- Exact costs add up in any order. -/
noncomputable instance : AddCommMonoid (Cost ℝ) where
  add_assoc a b c := by simp only [add_def, add_assoc]
  zero_add a := by
    change zero + a = a
    simp only [add_def, zero_def, zero_add]
  add_zero a := by
    change a + zero = a
    simp only [add_def, zero_def, add_zero]
  add_comm a b := by simp only [add_def, add_comm]
  nsmul := nsmulRec

theorem NonNegative.scaled {c : Cost ℝ} (h : c.NonNegative) {factor : ℝ} (hfactor : 0 ≤ factor) :
    (c.scaled factor).NonNegative :=
  ⟨mul_nonneg h.rows hfactor, mul_nonneg h.cpu hfactor, mul_nonneg h.io hfactor⟩

variable {s : CostSettings}

theorem value_zero : (0 : Cost ℝ).value s = 0 := by
  change zero.value s = 0
  simp [zero_def, value]

theorem value_add (a b : Cost ℝ) : (a + b).value s = a.value s + b.value s := by
  simp only [value, add_def]
  ring

theorem value_sum {k : Nat} (f : Fin k → Cost ℝ) : (∑ i, f i).value s = ∑ i, (f i).value s :=
  map_sum (⟨⟨fun c => c.value s, value_zero⟩, value_add⟩ : Cost ℝ →+ ℝ) f _

end Cost

/-- Weights and factors that make no cost negative. -/
structure CostSettings.NonNegative (s : CostSettings) : Prop where
  cpu : 0 ≤ (Quantity.ofFloat s.cpuWeight : ℝ)
  io : 0 ≤ (Quantity.ofFloat s.ioWeight : ℝ)
  multiplier : ∀ p ∈ s.multipliers, 0 ≤ (Quantity.ofFloat p.2 : ℝ)

section

variable {s : CostSettings}

theorem Cost.NonNegative.value_nonneg {c : Cost ℝ} (h : c.NonNegative) (hs : s.NonNegative) :
    0 ≤ c.value s :=
  add_nonneg (add_nonneg h.rows (mul_nonneg h.cpu hs.cpu)) (mul_nonneg h.io hs.io)

theorem Quantity.ofFloat_nonneg {x : Float} {significand : Nat} {exponent : Int}
    (h : Number.parts x = .finite false significand exponent) : 0 ≤ (ofFloat x : ℝ) := by
  change 0 ≤ (Number.parts x).real
  rw [h, Number.Parts.real]
  exact mul_nonneg (by simp [Number.signed]) (zpow_nonneg (by norm_num) _)

/-- A backend that is not listed counts in full. -/
theorem CostSettings.NonNegative.multiplier_nonneg (hs : s.NonNegative) (backend : String) :
    0 ≤ (Quantity.ofFloat (s.multiplier backend) : ℝ) := by
  unfold CostSettings.multiplier
  cases hfind : s.multipliers.find? (·.1 = backend) with
  | some p => exact hs.multiplier p (List.mem_of_find?_eq_some hfind)
  | none =>
    have hone : Number.parts 1.0 = .finite false (2 ^ 52) (-52) := by decide +kernel
    exact Quantity.ofFloat_nonneg hone

theorem aggregateFactor_nonneg (calls sums : Nat) : (0 : ℝ) ≤ aggregateFactor calls sums := by
  change (0 : ℝ) ≤ 1.0 + 0.125 * (calls : ℝ) + 0.0125 * (sums : ℝ)
  positivity

theorem sortWork_nonneg {n : ℝ} (h : 0 ≤ n) : 0 ≤ sortWork n := by
  have htwo : (1 : ℝ) ≤ max n (2.0 : ℝ) := le_trans (by norm_num) (le_max_right _ _)
  exact mul_nonneg h (Real.logb_nonneg (by norm_num) htwo)

theorem operatorCost_nonNegative (op : RelOp) {input rows : ℝ} (hinput : 0 ≤ input)
    (hrows : 0 ≤ rows) : (operatorCost op input rows).NonNegative := by
  have hzero : (0 : ℝ) ≤ (0.0 : ℝ) := by norm_num
  unfold operatorCost
  cases op with
  | scan _ => exact ⟨hrows, hrows, hrows⟩
  | filter _ _ => exact ⟨hrows, hinput, hzero⟩
  | project _ _ => exact ⟨hrows, hinput, hzero⟩
  | converter _ _ => exact Cost.NonNegative.scaled ⟨hrows, hinput, hzero⟩ (by norm_num)
  | aggregate _ a => exact ⟨hrows, mul_nonneg hinput (aggregateFactor_nonneg _ _), hzero⟩
  | sort _ o =>
    refine ⟨hrows, ?_, hzero⟩
    change 0 ≤ if o.collation.isEmpty then rows else sortWork input
    split
    · exact hrows
    · exact sortWork_nonneg hinput
  | values _ => exact ⟨hrows, hrows, hzero⟩
  | modify _ _ _ => exact ⟨by norm_num, hinput, hinput⟩

theorem selfCost_nonNegative (hs : s.NonNegative) (n : Node) {inputRows : List ℝ} {rows : ℝ}
    (hinputs : ∀ x ∈ inputRows, 0 ≤ x) (hrows : 0 ≤ rows) :
    (selfCost s n inputRows rows).NonNegative := by
  have hinput : 0 ≤ inputRows.headD 0.0 := by
    cases inputRows with
    | nil => norm_num
    | cons x _ => exact hinputs x (by simp)
  have hcost := operatorCost_nonNegative n.op hinput hrows
  unfold selfCost
  cases n.convention with
  | logical => exact hcost
  | enumerable => exact hcost
  | store b _ => exact hcost.scaled (hs.multiplier_nonneg b.name)

end

/-! ### Memos that come about -/

namespace Memo

/-- Memos that come about by inserting nodes and merging groups. -/
inductive Reachable {α : Type} [Quantity α] : Memo α → Prop
  | empty (rows : α) : Reachable { defaultRows := rows }
  | insert {m m' : Memo α} {n : Node} {target : Option GroupId} {id : NodeId} (h : Reachable m)
    (htarget : ∀ g, target = some g → g.n < m.groups.size)
    (hinsert : m.insert n target = .ok (id, m')) : Reachable m'
  | merge {m : Memo α} {a b : GroupId} (h : Reachable m) (ha : a.n < m.groups.size)
    (hb : b.n < m.groups.size) : Reachable (m.merge a b)

theorem Reachable.wellFormed {α : Type} [Quantity α] {m : Memo α} (h : m.Reachable) :
    m.WellFormed := by
  induction h with
  | empty rows => exact wellFormed_empty rows
  | @insert m m' n target id _ htarget hinsert hm =>
    have hends : Ends (fun _ => True) (m.insert n target) _ :=
      insert_grows hm (.inr fun _ => trivial) htarget
    exact (hends.result hinsert).wellFormed
  | merge _ ha hb hm => exact (merge_grows hm ha hb).1

/-- No estimate is negative. -/
structure Estimated (m : Memo ℝ) : Prop where
  default : 0 ≤ m.defaultRows
  groups : ∀ (i : Nat) group, m.groups[i]? = some group → 0 ≤ group.rows

variable {m m' : Memo ℝ}

theorem Estimated.rows_nonneg (h : m.Estimated) (g : GroupId) : 0 ≤ m.rows g := by
  unfold Memo.rows
  cases hgroup : m.groups[(m.find g).n]? with
  | none => exact h.default
  | some group => exact h.groups _ group hgroup

/-- Changing the members of a group leaves its estimate alone. -/
theorem nonneg_of_modify {groups : Array (Group ℝ)} {k : Nat} {f : Group ℝ → Group ℝ}
    (h : ∀ (i : Nat) group, groups[i]? = some group → 0 ≤ group.rows)
    (hf : ∀ group, (f group).rows = group.rows) (i : Nat) (group : Group ℝ)
    (hgroup : (groups.modify k f)[i]? = some group) : 0 ≤ group.rows := by
  rw [Array.getElem?_modify] at hgroup
  split at hgroup
  · obtain ⟨old, hold, rfl⟩ := Option.map_eq_some_iff.mp hgroup
    rw [hf]
    exact h i old hold
  · exact h i group hgroup

theorem Estimated.entered (h : m.Estimated) (n : Node) (d : String) (g : GroupId) :
    (m.entered n d g).Estimated :=
  ⟨h.default, nonneg_of_modify h.groups fun _ => rfl⟩

theorem Estimated.openGroup (h : m.Estimated) {rows : ℝ} (hrows : 0 ≤ rows) :
    (m.openGroup rows).2.Estimated := by
  refine ⟨h.default, ?_⟩
  intro i group hgroup
  simp only [Memo.openGroup, Array.getElem?_push] at hgroup
  split at hgroup
  · obtain rfl := Option.some.inj hgroup
    exact hrows
  · exact h.groups i group hgroup

theorem Estimated.merge (h : m.Estimated) (a b : GroupId) : (m.merge a b).Estimated := by
  have habsorb : ∀ older younger, (m.absorb older younger).Estimated := fun older younger =>
    ⟨h.default, nonneg_of_modify (nonneg_of_modify h.groups fun _ => rfl) fun _ => rfl⟩
  rw [merge_eq]
  split
  · exact h
  · split
    · exact habsorb _ _
    · exact habsorb _ _

/-- A new node that is counted gets an estimate that is not negative. -/
theorem Estimated.insert (h : m.Estimated) {n : Node} {target : Option GroupId} {id : NodeId}
    (hinsert : m.insert n target = .ok (id, m'))
    (hcounted : ∀ i k, m'.node i = .ok k → k.Counted) : m'.Estimated := by
  obtain ⟨d, -, hinsert⟩ := except_bind_eq_ok.mp hinsert
  have henter : ∀ {m₀ : Memo ℝ} {g : GroupId}, m₀.enter n d g = .ok (id, m') →
      m' = m₀.entered n d g := by
    intro m₀ g henter
    have hends : Ends (fun _ => True) (m₀.enter n d g) _ := enter_ends (.inr fun _ => trivial)
    exact congrArg Prod.snd (hends.result henter).1
  cases hknown : m.digests[d]? with
  | some known =>
    rw [hknown] at hinsert
    cases target with
    | none =>
      obtain ⟨-, rfl⟩ := Prod.mk.inj (Except.ok.inj hinsert)
      exact h
    | some g =>
      obtain ⟨current, -, hinsert⟩ := except_bind_eq_ok.mp hinsert
      obtain ⟨-, rfl⟩ := Prod.mk.inj (Except.ok.inj hinsert)
      exact h.merge _ _
  | none =>
    rw [hknown] at hinsert
    cases target with
    | some g =>
      obtain rfl := henter hinsert
      exact h.entered _ _ _
    | none =>
      obtain ⟨gs, -, hinsert⟩ := except_bind_eq_ok.mp hinsert
      obtain rfl := henter hinsert
      have hn : n.Counted := hcounted _ n Arena.get_push_self
      refine (h.openGroup (estimateRows_nonneg hn (fun x hx => ?_) h.default)).entered _ _ _
      obtain ⟨g, -, rfl⟩ := List.mem_map.mp hx
      exact h.rows_nonneg g

theorem defaultRows_merge (a b : GroupId) : (m.merge a b).defaultRows = m.defaultRows := by
  rw [merge_eq]
  split
  · rfl
  · split <;> rfl

theorem Inserted.defaultRows {n : Node} {gs : List GroupId} {target : Option GroupId} {id : NodeId}
    (h : m.Inserted n gs target id m') : m'.defaultRows = m.defaultRows := by
  cases h with
  | known _ => rfl
  | merged _ _ => exact defaultRows_merge _ _
  | joined _ => rfl
  | opened _ => rfl

/-- Statistics that are not negative make no estimate negative. -/
theorem Reachable.estimated (h : m.Reachable) (hdefault : 0 ≤ m.defaultRows)
    (hcounted : ∀ id n, m.node id = .ok n → n.Counted) : m.Estimated := by
  induction h with
  | empty rows => exact ⟨hdefault, fun i group hgroup => by simp at hgroup⟩
  | @insert m m' n target id h htarget hinsert ih =>
    have hends : Ends (fun _ => True) (m.insert n target) _ :=
      insert_ends h.wellFormed (.inr fun _ => trivial)
    obtain ⟨gs, hgs, hinserted⟩ := hends.result hinsert
    have hext := (hinserted.grown h.wellFormed hgs htarget).grows
    rw [hinserted.defaultRows] at hdefault
    have hm := ih hdefault fun id k hk => hcounted id k (hext.node id k hk)
    exact hm.insert hinsert hcounted
  | @merge m a b h ha hb ih =>
    rw [defaultRows_merge] at hdefault
    exact (ih hdefault fun id k hk => hcounted id k (by rw [node_merge, hk])).merge a b

end Memo

end Polystore
