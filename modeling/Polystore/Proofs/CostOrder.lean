import Mathlib.Order.Monotone.Basic
import Polystore.Proofs.PickedPlans

/-
  Polystore/Proofs/CostOrder.lean
  ===============================
  **Costs grow with the work.**  The formulas are read over exact numbers, and of the
  logarithm only that it is monotone and not negative from two on is used
  (`Quantity.Growing`).  Then a larger input gives a larger estimate (`outputRows_mono`),
  a larger input and output give a cost that is larger part by part (`operatorCost_atMost`),
  and another aggregate call adds to the work of each row.  Weights and factors that are
  not negative carry this over to the totals that are compared (`Node.costAt_grows`).
-/

namespace Polystore

/-- The exact numbers with some function for the logarithm. -/
@[reducible]
noncomputable def Quantity.exactWith (log2 : ℝ → ℝ) : Quantity ℝ :=
  { Quantity.exact with log2 := log2 }

/-- What the costs rely on of the logarithm. -/
structure Quantity.Growing (log2 : ℝ → ℝ) : Prop where
  mono : MonotoneOn log2 (Set.Ici 2)
  nonneg : ∀ x, 2 ≤ x → 0 ≤ log2 x

/-- The logarithm itself is such a function. -/
theorem Quantity.growing_logb : Growing (Real.logb 2) where
  mono _ hx _ _ hxy :=
    Real.logb_le_logb_of_le one_lt_two (lt_of_lt_of_le two_pos (Set.mem_Ici.mp hx)) hxy
  nonneg _ hx := Real.logb_nonneg one_lt_two (one_le_two.trans hx)

/-! ### Estimates -/

theorem groupCount_mono : Monotone (groupCount : ℝ → ℝ) := by
  intro r r' h
  have htenth : r * (0.1 : ℝ) ≤ r' * (0.1 : ℝ) := mul_le_mul_of_nonneg_right h (by norm_num)
  exact min_le_min (max_le_max_right _ htenth) (max_le_max_right _ h)

theorem aggregateRows_mono (a : Aggregation) : Monotone (aggregateRows a : ℝ → ℝ) := by
  intro r r' h
  have hsets : (0 : ℝ) ≤ (max a.sets.length 1 : ℕ) := Nat.cast_nonneg _
  unfold aggregateRows
  split
  · exact le_refl _
  · exact mul_le_mul_of_nonneg_right (groupCount_mono h) hsets

theorem windowRows_mono (o : Ordered) : Monotone (windowRows o : ℝ → ℝ) := by
  intro r r' h
  have hrest : max (r - (o.offset.getD 0 : ℕ)) (0.0 : ℝ) ≤ max (r' - (o.offset.getD 0 : ℕ)) 0.0 :=
    max_le_max_right _ (sub_le_sub_right h _)
  unfold windowRows
  split
  · exact min_le_min_right _ hrest
  · exact hrest

/-- No operator is taken to give fewer rows for more. -/
theorem outputRows_mono (op : RelOp) (default : ℝ) :
    Monotone fun r => outputRows op r default := by
  intro r r' h
  cases op with
  | scan | values | modify => exact le_refl _
  | project | converter => exact h
  | filter _ condition => exact mul_le_mul_of_nonneg_right h (selectivity_nonneg condition)
  | aggregate _ a => exact aggregateRows_mono a h
  | sort _ o => exact windowRows_mono o h

/-! ### Parts of a cost -/

namespace Cost

/-- No part of the first cost is larger. -/
structure AtMost (a b : Cost ℝ) : Prop where
  rows : a.rows ≤ b.rows
  cpu : a.cpu ≤ b.cpu
  io : a.io ≤ b.io

variable {a b : Cost ℝ} {s : CostSettings}

theorem AtMost.scaled (h : a.AtMost b) {factor : ℝ} (hfactor : 0 ≤ factor) :
    (a.scaled factor).AtMost (b.scaled factor) :=
  ⟨mul_le_mul_of_nonneg_right h.rows hfactor, mul_le_mul_of_nonneg_right h.cpu hfactor,
    mul_le_mul_of_nonneg_right h.io hfactor⟩

theorem AtMost.value_le (h : a.AtMost b) (hs : s.NonNegative) : a.value s ≤ b.value s :=
  add_le_add (add_le_add h.rows (mul_le_mul_of_nonneg_right h.cpu hs.cpu))
    (mul_le_mul_of_nonneg_right h.io hs.io)

/-- With a weight for work, more work shows. -/
theorem AtMost.value_lt (h : a.AtMost b) (hs : s.NonNegative)
    (hcpu : 0 < (Quantity.ofFloat s.cpuWeight : ℝ)) (hlt : a.cpu < b.cpu) :
    a.value s < b.value s :=
  add_lt_add_of_lt_of_le (add_lt_add_of_le_of_lt h.rows (mul_lt_mul_of_pos_right hlt hcpu))
    (mul_le_mul_of_nonneg_right h.io hs.io)

theorem value_scaled (c : Cost ℝ) (factor : ℝ) :
    (c.scaled factor).value s = factor * c.value s := by
  change c.rows * factor + c.cpu * factor * _ + c.io * factor * _ =
    factor * (c.rows + c.cpu * _ + c.io * _)
  ring

end Cost

section

variable {log2 : ℝ → ℝ} {r r' rows rows' : ℝ}

theorem sortWork_mono (hlog : Quantity.Growing log2) (hr : 0 ≤ r) (h : r ≤ r') :
    @sortWork ℝ (.exactWith log2) r ≤ @sortWork ℝ (.exactWith log2) r' := by
  have htwo : ∀ x : ℝ, (2 : ℝ) ≤ max x (2.0 : ℝ) := fun x =>
    le_trans (by norm_num) (le_max_right x _)
  have hlogs : log2 (max r 2.0) ≤ log2 (max r' 2.0) :=
    hlog.mono (htwo r) (htwo r') (max_le_max_right _ h)
  exact mul_le_mul h hlogs (hlog.nonneg _ (htwo r)) (hr.trans h)

/-- No part of a cost gets smaller when more rows come in and go out. -/
theorem operatorCost_atMost (hlog : Quantity.Growing log2) (op : RelOp) (hr : 0 ≤ r) (h : r ≤ r')
    (hrows : rows ≤ rows') : (@operatorCost ℝ (.exactWith log2) op r rows).AtMost
      (@operatorCost ℝ (.exactWith log2) op r' rows') := by
  cases op with
  | scan => exact ⟨hrows, hrows, hrows⟩
  | filter | project => exact ⟨hrows, h, le_refl _⟩
  | converter =>
    have hwhole : Cost.AtMost ⟨rows, r, 0.0⟩ ⟨rows', r', 0.0⟩ := ⟨hrows, h, le_refl _⟩
    exact hwhole.scaled (by norm_num)
  | aggregate _ a =>
    exact ⟨hrows, mul_le_mul_of_nonneg_right h (aggregateFactor_nonneg _ _), le_refl _⟩
  | sort _ o =>
    refine ⟨hrows, ?_, le_refl _⟩
    change (if o.collation.isEmpty then rows else @sortWork ℝ (.exactWith log2) r) ≤
      if o.collation.isEmpty then rows' else @sortWork ℝ (.exactWith log2) r'
    split
    · exact hrows
    · exact sortWork_mono hlog hr h
  | values => exact ⟨hrows, hrows, le_refl _⟩
  | modify => exact ⟨le_refl _, h, h⟩

/-! ### Another aggregate call -/

/-- The aggregate with a call more. -/
def Aggregation.withCall (a : Aggregation) (c : AggCall) : Aggregation :=
  { a with calls := a.calls ++ [c] }

theorem aggregateFactor_eq (calls sums : Nat) :
    (aggregateFactor calls sums : ℝ) = 1 + calls / 8 + sums / 80 := by
  change (1.0 : ℝ) + 0.125 * (calls : ℝ) + 0.0125 * (sums : ℝ) = _
  norm_num
  ring

theorem sumCalls_withCall (a : Aggregation) (c : AggCall) :
    sumCalls a.calls ≤ sumCalls (a.withCall c).calls :=
  (List.sublist_append_left a.calls [c]).countP_le

/-- A call adds to the work of each row. -/
theorem aggregateFactor_lt_withCall (a : Aggregation) (c : AggCall) :
    (aggregateFactor a.calls.length (sumCalls a.calls) : ℝ) <
      aggregateFactor (a.withCall c).calls.length (sumCalls (a.withCall c).calls) := by
  have hsums : (sumCalls a.calls : ℝ) ≤ sumCalls (a.withCall c).calls :=
    Nat.cast_le.mpr (sumCalls_withCall a c)
  have hcalls : ((a.withCall c).calls.length : ℝ) = a.calls.length + 1 := by
    rw [Aggregation.withCall, List.length_append, List.length_singleton, Nat.cast_succ]
  rw [aggregateFactor_eq, aggregateFactor_eq, hcalls]
  linarith

/-- No part of a cost gets smaller with a call more, for the same rows. -/
theorem operatorCost_withCall_atMost (a : Aggregation) (c : AggCall) (i : NodeId) (hr : 0 ≤ r) :
    (@operatorCost ℝ (.exactWith log2) (.aggregate i a) r rows).AtMost
      (@operatorCost ℝ (.exactWith log2) (.aggregate i (a.withCall c)) r rows) :=
  ⟨le_refl _, mul_le_mul_of_nonneg_left (aggregateFactor_lt_withCall a c).le hr, le_refl _⟩

theorem operatorCost_withCall_cpu_lt (a : Aggregation) (c : AggCall) (i : NodeId) (hr : 0 < r) :
    (@operatorCost ℝ (.exactWith log2) (.aggregate i a) r rows).cpu <
      (@operatorCost ℝ (.exactWith log2) (.aggregate i (a.withCall c)) r rows).cpu :=
  mul_lt_mul_of_pos_left (aggregateFactor_lt_withCall a c) hr

end

/-! ### Totals -/

namespace Node

/-- The total cost of a node alone, where its input has `r` rows and its output as many as
    are then estimated. -/
noncomputable def costAt (log2 : ℝ → ℝ) (s : CostSettings) (default : ℝ) (n : Node) (r : ℝ) : ℝ :=
  letI := Quantity.exactWith log2
  (selfCost s n [r] (estimateRows n [r] default)).value s

/-- By how much the work of the node's engine counts. -/
noncomputable def factor (s : CostSettings) (n : Node) : ℝ :=
  match n.convention with
  | .store b _ => Quantity.ofFloat (s.multiplier b.name)
  | _ => 1

/-- The node is an aggregate, and the other one the same with a call more. -/
structure AddsCall (n : Node) (c : AggCall) (n' : Node) (i : NodeId) (a : Aggregation) : Prop where
  before : n.op = .aggregate i a
  after : n'.op = .aggregate i (a.withCall c)
  convention : n'.convention = n.convention

variable {log2 : ℝ → ℝ} {s : CostSettings} {default : ℝ} {n n' : Node}

theorem factor_nonneg (hs : s.NonNegative) (n : Node) : 0 ≤ n.factor s := by
  unfold factor
  split
  · exact hs.multiplier_nonneg _
  · exact zero_le_one

theorem costAt_eq (log2 : ℝ → ℝ) (s : CostSettings) (default : ℝ) (n : Node) (r : ℝ) :
    n.costAt log2 s default r = n.factor s *
      (@operatorCost ℝ (.exactWith log2) n.op r (outputRows n.op r default)).value s := by
  unfold costAt selfCost factor
  cases n.convention with
  | logical | enumerable => exact (one_mul _).symm
  | store b _ => exact Cost.value_scaled _ _

/-- The calls do not change how many groups are estimated. -/
theorem AddsCall.costAt_eq {c : AggCall} {i : NodeId} {a : Aggregation}
    (h : n.AddsCall c n' i a) (log2 : ℝ → ℝ) (s : CostSettings) (default r : ℝ) :
    n.costAt log2 s default r = n.factor s *
        (@operatorCost ℝ (.exactWith log2) (.aggregate i a) r (aggregateRows a r)).value s ∧
      n'.costAt log2 s default r = n.factor s *
        (@operatorCost ℝ (.exactWith log2) (.aggregate i (a.withCall c)) r
          (aggregateRows a r)).value s := by
  have hfactor : n'.factor s = n.factor s := by rw [factor, factor, h.convention]
  rw [Node.costAt_eq, Node.costAt_eq, hfactor, h.before, h.after]
  exact ⟨rfl, rfl⟩

/-- Costs grow with the input and with each aggregate call; with a call strictly, if there
    are rows and their work counts. -/
theorem costAt_grows (hlog : Quantity.Growing log2) (hs : s.NonNegative) (default : ℝ) :
    (∀ (n : Node) (r r' : ℝ), 0 ≤ r → r ≤ r' →
      n.costAt log2 s default r ≤ n.costAt log2 s default r') ∧
    ∀ (n n' : Node) (c : AggCall) (i : NodeId) (a : Aggregation), n.AddsCall c n' i a →
      (∀ r, 0 ≤ r → n.costAt log2 s default r ≤ n'.costAt log2 s default r) ∧
      ∀ r, 0 < r → 0 < (Quantity.ofFloat s.cpuWeight : ℝ) → 0 < n.factor s →
        n.costAt log2 s default r < n'.costAt log2 s default r := by
  refine ⟨fun n r r' hr h => ?_, fun n n' c i a hadds => ⟨fun r hr => ?_, fun r hr hcpu hpos => ?_⟩⟩
  · rw [costAt_eq, costAt_eq]
    have hparts := operatorCost_atMost hlog n.op hr h (outputRows_mono n.op default h)
    exact mul_le_mul_of_nonneg_left (hparts.value_le hs) (factor_nonneg hs n)
  · obtain ⟨hbefore, hafter⟩ := hadds.costAt_eq log2 s default r
    rw [hbefore, hafter]
    exact mul_le_mul_of_nonneg_left ((operatorCost_withCall_atMost a c i hr).value_le hs)
      (factor_nonneg hs n)
  · obtain ⟨hbefore, hafter⟩ := hadds.costAt_eq log2 s default r
    rw [hbefore, hafter]
    refine mul_lt_mul_of_pos_left ?_ hpos
    exact (operatorCost_withCall_atMost a c i hr.le).value_lt hs hcpu
      (operatorCost_withCall_cpu_lt a c i hr)

end Node

theorem Quantity.ofFloat_pos {x : Float} {significand : Nat} {exponent : Int}
    (h : Number.parts x = .finite false significand exponent) (hpos : 0 < significand) :
    0 < (ofFloat x : ℝ) := by
  change 0 < (Number.parts x).real
  rw [h, Number.Parts.real]
  exact mul_pos (by simpa [Number.signed] using hpos) (zpow_pos two_pos _)

/-- Groups by the first column that a document store forms, with some calls. -/
def Node.grouped (calls : List AggCall) : Node :=
  ⟨.aggregate ⟨0⟩ ⟨.ofList [0], [.ofList [0]], calls, false⟩,
    { convention := .store .document "mongo" }, ⟨[]⟩, none⟩

/-- Three rows cost at least as much as one, and a sum makes one row dearer. -/
theorem Node.costAt_grows_grouped :
    (grouped []).costAt (Real.logb 2) {} 100 1 ≤ (grouped []).costAt (Real.logb 2) {} 100 3 ∧
      (grouped []).costAt (Real.logb 2) {} 100 1 <
        (grouped [⟨.sum, [1], false, none, [], .bigint, none⟩]).costAt (Real.logb 2) {} 100 1 := by
  have hgrows := costAt_grows Quantity.growing_logb CostSettings.default_nonNegative 100
  have hadds : (grouped []).AddsCall ⟨.sum, [1], false, none, [], .bigint, none⟩
      (grouped [⟨.sum, [1], false, none, [], .bigint, none⟩]) ⟨0⟩
      ⟨.ofList [0], [.ofList [0]], [], false⟩ := ⟨rfl, rfl, rfl⟩
  have hcpu : 0 < (Quantity.ofFloat ({} : CostSettings).cpuWeight : ℝ) := by
    have hone : Number.parts 1.0 = .finite false (2 ^ 52) (-52) := by decide +kernel
    exact Quantity.ofFloat_pos hone (by norm_num)
  have hfactor : 0 < (grouped []).factor {} := by
    have hlisted : ({} : CostSettings).multiplier "DOCUMENT" = 0.8 := by
      simp [CostSettings.multiplier]
    have hparts : Number.parts 0.8 = .finite false 7205759403792794 (-53) := by decide +kernel
    change 0 < (Quantity.ofFloat (({} : CostSettings).multiplier "DOCUMENT") : ℝ)
    rw [hlisted]
    exact Quantity.ofFloat_pos hparts (by norm_num)
  exact ⟨hgrows.1 _ 1 3 zero_le_one (by norm_num),
    (hgrows.2 _ _ _ _ _ hadds).2 1 one_pos hcpu hfactor⟩

end Polystore
