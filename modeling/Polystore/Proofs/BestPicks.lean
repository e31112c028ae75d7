import Polystore.Proofs.Derivations

/-
  Polystore/Proofs/BestPicks.lean
  ===============================
  **The picks are the best ones.**  A pick may be stale: it was made when its
  inputs were dearer.  But then it can be improved, so a pick that cannot be
  improved has the cost of its inputs as they are now, and no such pick stands
  below itself (`Sound`).  After each round the picks beat all trees of one more
  level, and no more levels are needed than there are nodes.  So when the rounds
  are over, the picks are the best of all trees (`select_best`).
-/

namespace Polystore

namespace Winners

variable {m : Memo ℝ} {s : CostSettings} {w : Winners ℝ} {g : GroupId} {id : NodeId} {n : Node}
  {inputs : List GroupId} {c : Convention} {d : Demand} {below : Cost ℝ}

/-! ### The cost of inputs -/

theorem inputsCost_eq_some : w.inputsCost c inputs = some below ↔
    ∃ f : Fin inputs.length → Winner ℝ, (∀ i, w[((inputs.get i, c) : Demand)]? = some (f i)) ∧
      below = ∑ i, (f i).cost := by
  have hfold : ∀ start : Cost ℝ, inputs.foldlM (fun (total : Cost ℝ) h => do
      return total + (← w[((h, c) : Demand)]?).cost) start = some below ↔
        ∃ f : Fin inputs.length → Winner ℝ,
          (∀ i, w[((inputs.get i, c) : Demand)]? = some (f i)) ∧
            below = start + ∑ i, (f i).cost := by
    induction inputs with
    | nil =>
      intro start
      constructor
      · rintro h
        obtain rfl := Option.some.inj h
        exact ⟨Fin.elim0, fun i => i.elim0, by simp⟩
      · rintro ⟨f, -, rfl⟩
        simp
    | cons h rest ih =>
      intro start
      rw [List.foldlM_cons]
      cases hx : w[((h, c) : Demand)]? with
      | none =>
        constructor
        · intro h
          cases h
        · rintro ⟨f, hf, -⟩
          have hzero := hf 0
          rw [List.get_cons_zero, hx] at hzero
          cases hzero
      | some x =>
        have hsum : ∀ f : Fin (rest.length + 1) → Winner ℝ,
            start + (f 0).cost + ∑ i : Fin rest.length, (f i.succ).cost =
              start + ∑ i, (f i).cost := by
          intro f
          rw [Fin.sum_univ_succ, add_assoc]
        refine (ih (start + x.cost)).trans ?_
        constructor
        · rintro ⟨f, hf, rfl⟩
          exact ⟨Fin.cons x f, Fin.cases hx hf, hsum (Fin.cons x f)⟩
        · rintro ⟨f, hf, rfl⟩
          have hzero := hf 0
          rw [List.get_cons_zero, hx] at hzero
          obtain rfl := Option.some.inj hzero
          exact ⟨fun i => f i.succ, fun i => hf i.succ, (hsum f).symm⟩
  have hzero := hfold Cost.zero
  have hadd : ∀ x : Cost ℝ, Cost.zero + x = x := zero_add
  simp only [hadd] at hzero
  exact hzero

/-! ### Getting cheaper -/

/-- There is a pick that costs no more than so much. -/
def AtMost (w : Winners ℝ) (s : CostSettings) (d : Demand) (v : ℝ) : Prop :=
  ∃ x, w[d]? = some x ∧ x.cost.value s ≤ v

theorem AtMost.trans {v v' : ℝ} (h : w.AtMost s d v) (hle : v ≤ v') : w.AtMost s d v' := by
  rcases h with ⟨x, hx, hv⟩
  exact ⟨x, hx, hv.trans hle⟩

theorem improves_eq_true {cost : Cost ℝ} : w.improves s d cost = true ↔
    ∀ x, w[d]? = some x → cost.value s < x.cost.value s := by
  unfold improves
  cases hx : w[d]? with
  | none => simp
  | some x =>
    constructor
    · rintro h _ ⟨⟩
      exact of_decide_eq_true h
    · intro h
      exact decide_eq_true (h x rfl)

theorem improves_eq_false {cost : Cost ℝ} :
    w.improves s d cost = false ↔ w.AtMost s d (cost.value s) := by
  rw [← Bool.not_eq_true, improves_eq_true]
  simp only [AtMost, not_forall, not_lt, exists_prop]

/-- Picks that cost no more than so much, summed. -/
theorem exists_inputsCost_le {v : Fin inputs.length → ℝ}
    (h : ∀ i, w.AtMost s (inputs.get i, c) (v i)) :
    ∃ below, w.inputsCost c inputs = some below ∧ below.value s ≤ ∑ i, v i := by
  choose f hf hle using h
  refine ⟨∑ i, (f i).cost, inputsCost_eq_some.mpr ⟨f, hf, rfl⟩, ?_⟩
  rw [Cost.value_sum]
  exact Finset.sum_le_sum fun i _ => hle i

/-- Considering a member makes no pick dearer. -/
theorem Considered.lowers {b : Bool} {r : Winners ℝ × Bool}
    (h : Considered m s w b g id n inputs r) {v : ℝ} (hd : w.AtMost s d v) : r.1.AtMost s d v := by
  cases h with
  | unavailable _ => exact hd
  | kept _ _ => exact hd
  | taken _ hbetter =>
    rcases hd with ⟨x, hx, hv⟩
    by_cases heq : (g, n.convention) = d
    · subst heq
      exact ⟨_, Std.TreeMap.getElem?_insert_self,
        (improves_eq_true.mp hbetter x hx).le.trans hv⟩
    · exact ⟨x, (getElem?_insert_of_ne heq).trans hx, hv⟩

/-- Afterwards the pick is no dearer than the member on top of its inputs. -/
theorem Considered.atMost {b : Bool} {r : Winners ℝ × Bool}
    (h : Considered m s w b g id n inputs r) {v : Fin inputs.length → ℝ}
    (hinputs : ∀ i, w.AtMost s (inputs.get i, n.inputConvention) (v i)) :
    r.1.AtMost s (g, n.convention) (∑ i, v i + (m.ownCost s g n inputs).value s) := by
  obtain ⟨below, hbelow, hle⟩ := exists_inputsCost_le hinputs
  have hsum : (below + m.ownCost s g n inputs).value s ≤
      ∑ i, v i + (m.ownCost s g n inputs).value s := by
    rw [Cost.value_add]
    exact add_le_add_left hle _
  cases h with
  | unavailable h =>
    rw [h] at hbelow
    cases hbelow
  | kept h hworse =>
    obtain rfl := Option.some.inj (h.symm.trans hbelow)
    exact (improves_eq_false.mp hworse).trans hsum
  | taken h _ =>
    obtain rfl := Option.some.inj (h.symm.trans hbelow)
    exact ⟨_, Std.TreeMap.getElem?_insert_self, hsum⟩

/-! ### No pick stands below itself -/

theorem inputsCost_insert_of_ne {x : Winner ℝ} (h : w.inputsCost c inputs = some below)
    (hne : ∀ h ∈ inputs, (h, c) ≠ d) :
    inputsCost (Std.TreeMap.insert w d x) c inputs = some below := by
  obtain ⟨f, hf, rfl⟩ := inputsCost_eq_some.mp h
  refine inputsCost_eq_some.mpr ⟨f, fun i => ?_, rfl⟩
  have hi : (inputs.get i, c) ≠ d := hne _ (List.get_mem inputs i)
  rw [getElem?_insert_of_ne hi.symm]
  exact hf i

/-- A better pick for a demand makes the inputs cheaper among which it is. -/
theorem inputsCost_insert {x : Winner ℝ} (h : w.inputsCost c inputs = some below)
    (hbetter : w.improves s d x.cost = true) :
    (∀ h ∈ inputs, (h, c) ≠ d) ∨
      ∃ below', inputsCost (Std.TreeMap.insert w d x) c inputs = some below' ∧
        below'.value s < below.value s := by
  by_cases hne : ∀ h ∈ inputs, (h, c) ≠ d
  · exact .inl hne
  right
  obtain ⟨f, hf, rfl⟩ := inputsCost_eq_some.mp h
  let f' := fun j => if (inputs.get j, c) = d then x else f j
  have hnew : ∀ j, (inputs.get j, c) = d → f' j = x := fun j hj => if_pos hj
  have hold : ∀ j, (inputs.get j, c) ≠ d → f' j = f j := fun j hj => if_neg hj
  have hless : ∀ j, (inputs.get j, c) = d → (f' j).cost.value s < (f j).cost.value s := by
    intro j hj
    rw [hnew j hj]
    exact improves_eq_true.mp hbetter (f j) (hj ▸ hf j)
  refine ⟨∑ j, (f' j).cost, inputsCost_eq_some.mpr ⟨f', fun j => ?_, rfl⟩, ?_⟩
  · by_cases hj : (inputs.get j, c) = d
    · rw [hnew j hj, hj]
      exact Std.TreeMap.getElem?_insert_self
    · rw [hold j hj, getElem?_insert_of_ne (Ne.symm hj)]
      exact hf j
  · rw [Cost.value_sum, Cost.value_sum]
    obtain ⟨i, hi⟩ : ∃ i, (inputs.get i, c) = d := by
      by_contra hnot
      refine hne fun h hh heq => hnot ?_
      obtain ⟨i, rfl⟩ := List.get_of_mem hh
      exact ⟨i, heq⟩
    refine Finset.sum_lt_sum (fun j _ => ?_) ⟨i, Finset.mem_univ i, hless i hi⟩
    by_cases hj : (inputs.get j, c) = d
    · exact (hless j hj).le
    · rw [hold j hj]

/-- A pick is a member of its group in the convention.  Its cost is that of its
    inputs as they are now, which rank lower, unless it can be improved. -/
def Ranked (m : Memo ℝ) (s : CostSettings) (w : Winners ℝ) (rank : Demand → Nat) (d : Demand)
    (x : Winner ℝ) : Prop :=
  ∃ n inputs below, m.Member d.1 x.node n inputs ∧ n.convention = d.2 ∧
    w.inputsCost n.inputConvention inputs = some below ∧
    ((x.cost = below + m.ownCost s d.1 n inputs ∧
        ∀ h ∈ inputs, rank (h, n.inputConvention) < rank d) ∨
      (below + m.ownCost s d.1 n inputs).value s < x.cost.value s)

/-- Another pick gets better.  A pick that stood on the old one can be improved now,
    so it does not matter how high the new one ranks. -/
theorem Ranked.insert {rank : Demand → Nat} {r : Nat} {d' : Demand} {x y : Winner ℝ}
    (h : Ranked m s w rank d' x) (hother : d' ≠ d) (hbetter : w.improves s d y.cost = true) :
    Ranked m s (Std.TreeMap.insert w d y) (Function.update rank d r) d' x := by
  obtain ⟨n, inputs, old, hmember, hc, hold, hcases⟩ := h
  rcases inputsCost_insert hold hbetter with hnot | ⟨new, hnew, hless⟩
  · refine ⟨n, inputs, old, hmember, hc, inputsCost_insert_of_ne hold hnot, ?_⟩
    apply hcases.imp_left
    rintro ⟨hcost, hlower⟩
    refine ⟨hcost, ?_⟩
    intro h hh
    rw [Function.update_of_ne hother, Function.update_of_ne (hnot h hh)]
    exact hlower h hh
  · refine ⟨n, inputs, new, hmember, hc, hnew, .inr ?_⟩
    have hdropped : (new + m.ownCost s d'.1 n inputs).value s <
        (old + m.ownCost s d'.1 n inputs).value s := by
      rw [Cost.value_add, Cost.value_add]
      exact add_lt_add_left hless _
    rcases hcases with ⟨hcost, -⟩ | hstale
    · rw [hcost]
      exact hdropped
    · exact hdropped.trans hstale

/-- Picks as selection makes them. -/
structure Sound (m : Memo ℝ) (s : CostSettings) (w : Winners ℝ) : Prop where
  /-- The cost of a pick is that of a tree. -/
  derived : ∀ (d : Demand) x, w[d]? = some x → ∃ t : Derivation m d, t.cost s = x.cost
  ranked : ∃ rank : Demand → Nat, ∀ (d : Demand) x, w[d]? = some x → Ranked m s w rank d x

/-- The picks for the inputs of a member make a tree with it. -/
theorem Sound.exists_derivation (hw : w.Sound m s) (hmember : m.Member g id n inputs)
    (hbelow : w.inputsCost n.inputConvention inputs = some below) :
    ∃ t : Derivation m (g, n.convention), t.cost s = below + m.ownCost s g n inputs := by
  obtain ⟨f, hf, rfl⟩ := inputsCost_eq_some.mp hbelow
  choose tree htree using fun i => hw.derived _ _ (hf i)
  refine ⟨.node hmember tree, ?_⟩
  rw [Derivation.cost_node]
  simp only [htree]

theorem exists_rank (rank : Demand → Nat) (c : Convention) (inputs : List GroupId) :
    ∃ r, ∀ h ∈ inputs, rank (h, c) < r := by
  induction inputs with
  | nil => exact ⟨0, by simp⟩
  | cons h rest ih =>
    rcases ih with ⟨r, hr⟩
    refine ⟨max r (rank (h, c) + 1), List.forall_mem_cons.mpr ⟨by omega, ?_⟩⟩
    intro h' hh'
    have hlt := hr h' hh'
    omega

variable (hs : s.NonNegative) (hrows : ∀ g, 0 ≤ m.rows g)

include hs hrows

/-- A member is not better than a pick that it takes as an input. -/
theorem Sound.ne_of_improves (hw : w.Sound m s)
    (hbelow : w.inputsCost n.inputConvention inputs = some below)
    (hbetter : w.improves s (g, n.convention) (below + m.ownCost s g n inputs) = true) :
    ∀ h ∈ inputs, (h, n.inputConvention) ≠ (g, n.convention) := by
  intro h hh heq
  obtain ⟨i, rfl⟩ := List.get_of_mem hh
  obtain ⟨f, hf, rfl⟩ := inputsCost_eq_some.mp hbelow
  have hless := improves_eq_true.mp hbetter (f i) (heq ▸ hf i)
  have hnonneg : ∀ j, 0 ≤ (f j).cost.value s := by
    intro j
    obtain ⟨t, ht⟩ := hw.derived _ _ (hf j)
    rw [← ht]
    exact t.value_nonneg hs hrows
  have hle : (f i).cost.value s ≤ ∑ j, (f j).cost.value s :=
    Finset.single_le_sum (fun j _ => hnonneg j) (Finset.mem_univ i)
  have hown := Memo.ownCost_value_nonneg hs hrows g n inputs
  rw [Cost.value_add, Cost.value_sum] at hless
  linarith

theorem Sound.taken (hw : w.Sound m s) (hmember : m.Member g id n inputs)
    (hbelow : w.inputsCost n.inputConvention inputs = some below)
    (hbetter : w.improves s (g, n.convention) (below + m.ownCost s g n inputs) = true) :
    Sound m s (Std.TreeMap.insert w (g, n.convention) ⟨id, below + m.ownCost s g n inputs⟩) := by
  have hne := hw.ne_of_improves hs hrows hbelow hbetter
  constructor
  · intro d x hx
    rcases getElem?_insert_eq_some hx with ⟨rfl, rfl⟩ | ⟨-, hx⟩
    · exact hw.exists_derivation hmember hbelow
    · exact hw.derived d x hx
  · obtain ⟨rank, hrank⟩ := hw.ranked
    obtain ⟨r, hr⟩ := exists_rank rank n.inputConvention inputs
    refine ⟨Function.update rank (g, n.convention) r, ?_⟩
    intro d x hx
    rcases getElem?_insert_eq_some hx with ⟨rfl, rfl⟩ | ⟨hother, hx⟩
    · refine ⟨n, inputs, below, hmember, rfl, inputsCost_insert_of_ne hbelow hne, .inl ⟨rfl, ?_⟩⟩
      intro h hh
      rw [Function.update_self, Function.update_of_ne (hne h hh)]
      exact hr h hh
    · exact (hrank d x hx).insert hother hbetter

theorem Considered.sound {b : Bool} {r : Winners ℝ × Bool} (hw : w.Sound m s)
    (hmember : m.Member g id n inputs) (h : Considered m s w b g id n inputs r) :
    r.1.Sound m s := by
  cases h with
  | unavailable _ => exact hw
  | kept _ _ => exact hw
  | taken hbelow hbetter => exact hw.taken hs hrows hmember hbelow hbetter

omit hs hrows

/-! ### Rounds -/

/-- The picks beat all trees of so many levels. -/
def Beats (m : Memo ℝ) (s : CostSettings) (w : Winners ℝ) (k : Nat) : Prop :=
  ∀ {d} (t : Derivation m d), t.Within k → w.AtMost s d ((t.cost s).value s)

include hs hrows

/-- A round beats the trees of one more level. -/
theorem round_beats (hm : m.WellFormed) {k : Nat} (hw : w.Sound m s) (hk : w.Beats m s k) :
    Ends (fun _ => False) ((candidates m).foldlM (consider m s) (w, false)) fun r =>
      (r.1.Sound m s ∧ r.1.Beats m s (k + 1)) ∧ (r.2 = false → r.1 = w ∧ Settled m s w) := by
  have hround := round_ends (s := s) (E := fun _ => False) (.inl hm)
    (J := fun w' => w'.Sound m s ∧ w'.Beats m s k)
    (R := fun w₁ w₂ => ∀ d v, w₁.AtMost s d v → w₂.AtMost s d v)
    (D := fun g id w' => ∀ n inputs (h : m.Member g id n inputs)
      (below : ∀ i : Fin inputs.length, Derivation m (inputs.get i, n.inputConvention)),
      (∀ i, (below i).Within k) →
        w'.AtMost s (g, n.convention) (((Derivation.node h below).cost s).value s))
    (fun _ _ _ h => h) (fun _ _ _ h h' d v hv => h' d v (h d v hv))
    (fun _ _ _ _ _ hall hlower n inputs h below hbelow => hlower _ _ (hall n inputs h below hbelow))
    ?_ ⟨hw, hk⟩
  · apply hround.imp
    intro r hr
    obtain ⟨⟨hsound, -⟩, -, hall, hend⟩ := hr
    refine ⟨⟨hsound, fun t ht => ?_⟩, hend⟩
    cases t with
    | @node g id n inputs h below => exact hall h n inputs h below ht
  · intro w' b g id n inputs r hw' hmember hconsidered
    have hlowers : ∀ d v, w'.AtMost s d v → r.1.AtMost s d v := fun d v => hconsidered.lowers
    refine ⟨⟨hconsidered.sound hs hrows hw'.1 hmember, fun t ht => hlowers _ _ (hw'.2 t ht)⟩,
      hlowers, fun n' inputs' h below hbelow => ?_⟩
    obtain rfl : n' = n := Except.ok.inj (h.node.symm.trans hmember.node)
    obtain rfl : inputs' = inputs := Except.ok.inj (h.inputs.symm.trans hmember.inputs)
    rw [Derivation.value_node]
    exact hconsidered.atMost fun i => hw'.2 (below i) (hbelow i)

omit hs hrows

/-- When nothing is better than the picks, they beat all trees. -/
theorem Settled.atMost (hw : Settled m s w) (t : Derivation m d) :
    w.AtMost s d ((t.cost s).value s) := by
  induction t with
  | @node g id n inputs h below ih =>
    obtain ⟨sum, hsum, hle⟩ := exists_inputsCost_le ih
    refine (improves_eq_false.mp (hw h hsum)).trans ?_
    rw [Derivation.value_node, Cost.value_add]
    exact add_le_add_left hle _

/-- When the picks beat all trees, nothing is better than they are. -/
theorem Sound.settled (hw : w.Sound m s)
    (h : ∀ {d} (t : Derivation m d), w.AtMost s d ((t.cost s).value s)) : Settled m s w := by
  intro g id n inputs below hmember hbelow
  obtain ⟨t, ht⟩ := hw.exists_derivation hmember hbelow
  rw [improves_eq_false, ← ht]
  exact h t

include hs hrows

/-- Selection ends with picks that beat all trees. -/
theorem select_best (hm : m.WellFormed) : ∃ w, select m s = .ok w ∧ w.Sound m s ∧
    Settled m s w := by
  have hempty : Sound m s {} :=
    ⟨fun d x hx => by simp at hx, fun _ => 0, fun d x hx => by simp at hx⟩
  have hstart : Beats m s {} 0 := by
    intro d t ht
    cases t with
    | node h below => exact ht.elim
  have hends : Ends (fun _ => False) (improve m s {} (m.size + 1)) _ := improve_ends (k := 0)
    (J := fun k w => w.Sound m s ∧ w.Beats m s k)
    (fun k w hw => round_beats hs hrows hm hw.1 hw.2) ⟨hempty, hstart⟩
  obtain ⟨w, hw, k, ⟨hsound, hbeats⟩, hend⟩ := hends.exists_result
  refine ⟨w, hw, hsound, ?_⟩
  rcases hend with hrounds | hsettled
  · refine hsound.settled fun t => ?_
    obtain ⟨t', ht', hle⟩ := t.exists_within hs hrows hm (show m.size ≤ k by omega)
    exact (hbeats t' ht').trans hle
  · exact hsettled

end Winners

end Polystore
