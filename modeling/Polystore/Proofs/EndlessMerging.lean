import Polystore.Proofs.Settling

/-
  Polystore/Proofs/EndlessMerging.lean
  ====================================
  **Merging that does not end.**  A conjunct with a NaN may have the text of one without,
  because of a cast a text shows the first operand only.  Then a filter with such a
  conjunct can get into the group of its own input, and from there on each filter of the
  group gives one with a conjunct more.  So exploration never ends because a round changes
  nothing, whatever the budgets (`Plan.explore_never_settles`).
-/

namespace Polystore

open FilterMerge

/-! ### Merged filters -/

/-- What merging puts in place of a filter over another one. -/
def Node.overLower (root : Node) (j : NodeId) (lower upper : Expr) : Node :=
  ⟨.filter j (mergedCondition lower upper), root.traits, root.row, none⟩

namespace Memo

variable {start m m' : Memo Float} {stock : Set Node} {r k : NodeId}

/-- Two filters have been merged: what stands for them is in the group of the upper one.
    It is known there as it was called at first, if it stands on one of the first two
    nodes. -/
def Merges (m : Memo Float) (r k : NodeId) : Prop :=
  ∃ root below i j upper lower, m.node r = .ok root ∧ root.op = .filter i upper ∧
    m.node k = .ok below ∧ below.op = .filter j lower ∧
      (j.n ≤ 1 → ∃ q g, m.digests[digestText (root.overLower j lower upper) [⟨j.n⟩]]? = some q ∧
        m.groupOf q = .ok g ∧ m.groupOf r = .ok g)

theorem Merges.extends (hm : m.WellFormed) (h : m.Merges r k) (hext : m.Extends m') :
    m'.Merges r k := by
  obtain ⟨root, below, i, j, upper, lower, hroot, hop, hbelow, hop', hknown⟩ := h
  refine ⟨root, below, i, j, upper, lower, hext.node _ _ hroot, hop, hext.node _ _ hbelow, hop',
    fun hj => ?_⟩
  obtain ⟨q, g, hq, hg, hr⟩ := hknown hj
  exact ⟨q, m'.find g, hext.digests _ _ hq, hext.groupOf hm hg, hext.groupOf hm hr⟩

/-- A filter that the rules without a store offer stands where one of the memo does. -/
theorem Offer.exists_filter {n : Node} {target : Option GroupId} {i : NodeId} {condition : Expr}
    (hoffer : m.Offer (fun _ => False) n target) (hop : n.op = .filter i condition) :
    ∃ id k lower, m.node id = .ok k ∧ k.op = .filter i lower := by
  cases hoffer with
  | @locally r root g hroot hlogical hoperator => exact ⟨r, root, condition, hroot.node, hop⟩
  | @mergedFilter r i k j root below g h upper lower hroot hlogical hop₁ hinput hbelow hlogical'
      hop' =>
    obtain ⟨rfl, -⟩ := RelOp.filter.inj hop
    exact ⟨k, below, lower, hbelow.node, hop'⟩
  | projection hroot hlogical hop₁ hinput hbelow hlogical' hkind hn =>
    obtain ⟨exprs, row, rfl⟩ := AggregateTrim.projection_eq_ok hn
    cases hop
  | trimmed => cases hop
  | scan hknown => exact hknown.elim
  | pushed hknown => exact hknown.elim
  | part hknown => exact hknown.elim
  | residual hknown => exact hknown.elim
  | convert hknown => exact hknown.elim

/-- The first two nodes of a memo, of different operators and in groups of their own. -/
structure Begins (start : Memo Float) (n₀ n₁ : Node) : Prop where
  wellFormed : start.WellFormed
  first : start.Has ⟨0⟩ n₀ ⟨0⟩
  second : start.Has ⟨1⟩ n₁ ⟨1⟩
  kind_ne : n₀.kind ≠ n₁.kind

/-- A memo that the rules without a store have made of another one. -/
structure Continues (start : Memo Float) (stock : Set Node) (m : Memo Float) : Prop where
  wellFormed : m.WellFormed
  grown : start.Extends m
  kinds : ∃ kind, m.Marked (Node.Drawn stock) kind
  /-- All filters stand on nodes that were there at first. -/
  inputs : ∀ id n i condition, m.node id = .ok n → n.op = .filter i condition → i.n < start.size

namespace Continues

theorem steps (h : Continues start stock m) (hsteps : m.Steps (fun _ => False) m') :
    Continues start stock m' := by
  refine hsteps.preserves (P := Continues start stock) h.wellFormed ?_ h
  intro m₁ m₂ n gs target id hm h hoffer hgs htarget hinserted
  have hgrown := hinserted.grown hm hgs htarget
  obtain ⟨kind, hkind⟩ := h.kinds
  obtain ⟨hdrawn, hat, -⟩ := hoffer.drawn hm hkind hgs
  obtain ⟨kind', hkind', -⟩ := hkind.drawn_inserted hm hdrawn hat hgs htarget hinserted
  refine ⟨hgrown.wellFormed, h.grown.trans hgrown.grows, ⟨kind', hkind'⟩, ?_⟩
  intro id' k i condition hk hop
  rcases hgrown.node_cases id' k hk with hold | rfl
  · exact h.inputs id' k i condition hold hop
  · obtain ⟨id₀, k₀, lower, hk₀, hop₀⟩ := hoffer.exists_filter hop
    exact h.inputs id₀ k₀ i lower hk₀ hop₀

/-- The groups of the first two nodes stay, because they have different operators. -/
theorem groupOf (h : Continues start stock m) {n₀ n₁ : Node} (hbegins : start.Begins n₀ n₁)
    {j : Nat} (hj : j ≤ 1) : m.groupOf ⟨j⟩ = .ok ⟨j⟩ := by
  have hdown := h.wellFormed.mergesDown
  have hle (g : GroupId) : (m.find g).n ≤ g.n := find_le hdown g
  have hzero : m.find ⟨0⟩ = ⟨0⟩ := GroupId.eq_of_n (Nat.le_zero.mp (hle ⟨0⟩))
  have hhas₀ := h.grown.has hbegins.wellFormed hbegins.first
  have hhas₁ := h.grown.has hbegins.wellFormed hbegins.second
  rw [hzero] at hhas₀
  have hone : m.find ⟨1⟩ = ⟨1⟩ := by
    rcases Nat.lt_or_eq_of_le (hle ⟨1⟩) with hlt | heq
    · obtain ⟨kind, hmarked⟩ := h.kinds
      have hsame : m.find ⟨1⟩ = ⟨0⟩ := GroupId.eq_of_n (Nat.lt_one_iff.mp hlt)
      rw [hsame] at hhas₁
      have hkindOf {id : NodeId} {n : Node} (hn : m.Has id n ⟨0⟩) : kind ⟨0⟩ = n.kind := by
        obtain ⟨gs, hgs⟩ := h.wellFormed.exists_inputGroups hn.node
        exact (hmarked id n ⟨0⟩ gs hn hgs).kind_eq
      exact absurd ((hkindOf hhas₀).symm.trans (hkindOf hhas₁)) hbegins.kind_ne
    · exact GroupId.eq_of_n heq
  rw [hone] at hhas₁
  rcases Nat.le_one_iff_eq_zero_or_eq_one.mp hj with rfl | rfl
  · exact hhas₀.group
  · exact hhas₁.group

/-- What is known as a filter is a filter that reads like it. -/
theorem filter_of_known (h : Continues start stock m) (hstock : Node.Unassigned stock) {n : Node}
    {i : NodeId} {condition : Expr} (hn : n.convention.storeName? = none)
    (hop : n.op = .filter i condition) {g : GroupId} {id : NodeId}
    (hid : m.digests[digestText n [g]]? = some id) :
    ∃ k j condition', m.node id = .ok k ∧ k.op = .filter j condition' ∧
      k.convention = n.convention ∧ condition.ReadsAs condition' ∧
        m.groupOf j = .ok (m.find g) := by
  have hm := h.wellFormed
  obtain ⟨k, gs, hk, hd, hgs⟩ := hm.digests _ _ hid
  obtain ⟨home, hhome⟩ := hm.exists_groupOf (Arena.lt_size_of_get hk)
  obtain ⟨hs, hhs⟩ := hm.exists_inputGroups hk
  obtain ⟨kind, hkind⟩ := h.kinds
  have hdrawn := hkind id k home hs ⟨hk, hhome⟩ hhs
  have hlength : gs.length = k.inputs.length := by
    rw [(mapM_eq_ok.mp hgs).length_eq, List.length_map]
  have hinputs : n.inputs = [i] := by simp [Node.inputs, hop, RelOp.inputs]
  obtain ⟨hkind', -, rfl⟩ := digestText_inj hlength (by simp [hinputs]) hd
  have hfilter : n.kind = .filter := by rw [Node.kind, hop, RelOp.kind]
  obtain ⟨j, condition', hop'⟩ := Node.exists_filter_of_kind (hkind'.symm.trans hfilter)
  obtain ⟨hconvention, hreads⟩ :=
    Node.filter_of_digestText hn (hdrawn.storeName?_eq_none hstock) hop hop' hd
  refine ⟨k, j, condition', hk, hop', hconvention.symm, hreads, ?_⟩
  have hinputs' : k.inputs = [j] := by simp [Node.inputs, hop', RelOp.inputs]
  rw [hinputs', List.map_singleton] at hgs
  obtain ⟨g', hg', hj⟩ := exists_of_forall₂_left (mapM_eq_ok.mp hgs) j (by simp)
  rw [hj, List.mem_singleton.mp hg']

end Continues

end Memo

/-! ### The rules -/

/-- The default rules merge the filters that are there. -/
def Memo.mergingPlot {start : Memo Float} {n₀ n₁ : Node} (hbegins : start.Begins n₀ n₁)
    (stock : Set Node) :
    Exploration.Plot (fun _ => False) (Registry.defaults.rules.map (·.2)) where
  Invariant := Memo.Continues start stock
  Error _ := True
  Done rule found m := rule = FilterMerge.rule → ∃ r k, found = [r, k] ∧ m.Merges r k
  wellFormed h := h.wellFormed
  steps h hsteps := h.steps hsteps
  lasts h hdone hext hrule := by
    obtain ⟨r, k, hfound, hmerges⟩ := hdone hrule
    exact ⟨r, k, hfound, hmerges.extends h.wellFormed hext⟩
  matches_ends _ _ _ := .of_ok (fun _ => trivial) fun _ _ => trivial
  runs {rule m₀ m id n founds} hrule h₀ h hext hn hmatches found hfound := by
    have hm₀ := h₀.wellFormed
    have hm := h.wellFormed
    by_cases hmerge : rule = FilterMerge.rule
    · subst hmerge
      obtain ⟨i', k, below, h', hfinds⟩ :=
        (Pattern.matchesAt_over hm₀ rfl rfl hn).result hmatches found hfound
      obtain ⟨hlogical, i, upper, hop⟩ := Pattern.exists_filter rfl rfl hfinds.accepts
      obtain ⟨hlogical', j, lower, hop'⟩ := Pattern.exists_filter rfl rfl hfinds.accepts_below
      obtain rfl : i = i' := by simpa [Node.inputs, hop, RelOp.inputs] using hfinds.inputs
      obtain ⟨g, hg⟩ := hm₀.exists_groupOf (Arena.lt_size_of_get hn)
      have hroot := hext.has hm₀ ⟨hn, hg⟩
      have hbelow := hext.has hm₀ hfinds.member
      have hrun := FilterMerge.rule_runs (E := fun _ => True) (fun _ => False) (fun _ => trivial) hm
        hroot hlogical hop (hext.groupOf hm₀ hfinds.group) hbelow hlogical' hop'
      rw [hfinds.found_eq]
      refine hrun.imp fun _ f hf => ?_
      obtain ⟨hproper, q, hgrown⟩ := hf
      refine ⟨hproper, fun _ => ⟨id, k, rfl, n, below, i, j, upper, lower,
        hgrown.grows.node _ _ hroot.node, hop, hgrown.grows.node _ _ hbelow.node, hop',
        fun hj => ?_⟩⟩
      obtain ⟨gs, hgs, hknown⟩ := hgrown.known
      obtain rfl := Memo.mapM_singleton hgs (h.groupOf hbegins hj)
      exact ⟨q, _, hknown, hgrown.groupOf _ rfl, hgrown.grows.groupOf hm hroot.group⟩
    · have hsound := Registry.sound_of_defaults hrule m₀ m hm₀ hm hext id n hn
      exact ((hsound.result hmatches found hfound).weaken fun _ _ => trivial).imp
        fun _ f hf => ⟨hf, fun h => absurd h hmerge⟩

/-- Logical filters that stand on one another have been merged. -/
def Memo.Merged (m : Memo Float) : Prop :=
  ∀ {r k : NodeId} {root below : Node} {g h : GroupId} {i j : NodeId} {upper lower : Expr},
    m.Has r root g → root.convention = .logical → root.op = .filter i upper →
    m.groupOf i = .ok h → m.Has k below h → below.convention = .logical →
    below.op = .filter j lower → j.n ≤ 1 →
    ∃ q, m.digests[Memo.digestText (root.overLower j lower upper) [⟨j.n⟩]]? = some q ∧
      m.groupOf q = .ok g

theorem Memo.merged_of_saturated {start m : Memo Float} {n₀ n₁ : Node}
    {hbegins : start.Begins n₀ n₁} {stock : Set Node} (hm : m.WellFormed)
    (hsaturated : (mergingPlot hbegins stock).Saturated m) : m.Merged := by
  intro r k root below g h i j upper lower hroot hlogical hop hgroup hbelow hlogical' hop' hj
  have hrule : FilterMerge.rule ∈ Registry.defaults.rules.map (·.2) := by
    rw [Registry.rules_defaults]
    exact List.mem_cons_self
  obtain ⟨founds, hfounds, hdone⟩ := hsaturated r hroot.lt_size FilterMerge.rule hrule
  have haccepts {p : Pattern} {n : Node} {i : NodeId} {condition : Expr}
      (hkind : p.kind = some .filter) (hconvention : p.convention = some .logical)
      (hguard : p.guard = none) (hn : n.convention = .logical) (hop : n.op = .filter i condition) :
      p.accepts n = true := by
    refine Pattern.accepts_iff.mpr ⟨fun c hc => ?_, fun c hc => ?_, fun guard hg => ?_⟩
    · rw [hkind] at hc
      rw [← Option.some.inj hc, Node.kind, hop]
      rfl
    · rw [hconvention] at hc
      rw [← Option.some.inj hc, hn]
    · rw [hguard] at hg
      cases hg
  have hfound : [r, k] ∈ founds := Pattern.mem_matchesAt_over hm rfl rfl hroot.node
    (haccepts rfl rfl rfl hlogical hop) (by simp [Node.inputs, hop, RelOp.inputs]) hgroup hbelow
    (haccepts rfl rfl rfl hlogical' hop') hfounds
  obtain ⟨r', k', heq, root', below', i', j', upper', lower', hr, hopr, hk, hopk, hknown⟩ :=
    hdone [r, k] hfound rfl
  obtain ⟨rfl, rfl⟩ : r = r' ∧ k = k' := by simpa using heq
  obtain rfl : root = root' := Except.ok.inj (hroot.node.symm.trans hr)
  obtain rfl : below = below' := Except.ok.inj (hbelow.node.symm.trans hk)
  obtain ⟨rfl, rfl⟩ := RelOp.filter.inj (hop.symm.trans hopr)
  obtain ⟨rfl, rfl⟩ := RelOp.filter.inj (hop'.symm.trans hopk)
  obtain ⟨q, g', hq, hgroup', hrg⟩ := hknown hj
  obtain rfl : g = g' := Except.ok.inj (hroot.group.symm.trans hrg)
  exact ⟨q, hq, hgroup'⟩

/-! ### A conjunct that is taken for another one -/

/-- Three conditions that are no conjunctions.  The third one has a NaN, and still the
    text of the second one, which is not equal to the first one. -/
structure Expr.Misread (p q n : Expr) : Prop where
  single : ∀ e ∈ [p, q, n], e.conjuncts = [e]
  number : ∀ e ∈ [p, q], Float.nan ∉ e.doubles
  ne : (q == p) = false
  nan : Float.nan ∈ n.doubles
  text_eq : n.text = q.text

namespace Expr.Misread

variable {p q n : Expr}

/-- Conjuncts without a NaN that are there already are not added again. -/
theorem merged_same (h : Misread p q n) {e : Expr} (he : e ∈ [p, q]) :
    mergedCondition (allOf [p, q]) e = allOf [p, q] := by
  have hsub {e : Expr} (he : e ∈ [p, q]) : e.conjuncts = [e] :=
    h.single e (List.mem_append_left [n] he)
  have hcontains : [p, q].contains e = true :=
    List.contains_iff_exists_mem_beq.mpr ⟨e, he, beq_self (h.number e he)⟩
  rw [mergedCondition, conjuncts_allOf fun c hc => hsub hc, hsub he, mergedConjuncts_cons,
    if_pos hcontains]
  rfl

theorem merged_apart (h : Misread p q n) : mergedCondition p q = allOf [p, q] := by
  have hcontains : [p].contains q = false := by simp [h.ne]
  rw [mergedCondition, h.single p (by simp), h.single q (by simp), mergedConjuncts_cons, hcontains]
  rfl

/-- A conjunct with a NaN is always added. -/
theorem mergedConjuncts_nan (h : Misread p q n) (cs : List Expr) :
    mergedConjuncts cs n.conjuncts = cs ++ [n] := by
  have hcontains : ¬cs.contains n = true := by
    rw [List.contains_iff_exists_mem_beq]
    rintro ⟨c, -, hc⟩
    exact nan_notMem_of_beq hc h.nan
  rw [h.single n (by simp), mergedConjuncts_cons, if_neg hcontains]
  rfl

theorem merged_nan (h : Misread p q n) : mergedCondition p n = allOf [p, n] := by
  rw [mergedCondition, h.mergedConjuncts_nan, h.single p (by simp)]
  rfl

theorem text_allOf (h : Misread p q n) : (allOf [p, n]).text = (allOf [p, q]).text := by
  simp only [allOf, join, apply, text, text.texts, h.text_eq]

end Expr.Misread

/-! ### The plan -/

theorem Node.overLower_filterOn (i j : NodeId) (e lower upper : Expr) :
    (filterOn i e).overLower j lower upper = filterOn j (mergedCondition lower upper) := rfl

theorem Node.digestText_filterOn {e e' : Expr} (h : e.text = e'.text) (i : NodeId)
    (gs : List GroupId) :
    Memo.digestText (filterOn i e) gs = Memo.digestText (filterOn i e') gs := by
  simp only [Memo.digestText, label, kind, RelOp.kind, RelOp.describe, filterOn, h]

/-- Four filters on no rows. -/
def Plan.misreading (p q n : Expr) : Plan :=
  ⟨⟨#[.noRows .logical, filterOn ⟨0⟩ (Expr.allOf [p, q]), filterOn ⟨1⟩ p, filterOn ⟨2⟩ q,
    filterOn ⟨3⟩ n]⟩, ⟨4⟩⟩

namespace Memo.Continues

variable {start m : Memo Float} {stock : Set Node} {p q n : Expr}

/-- The filters of the plan get into one group. -/
theorem groupOf_filters (hmisread : Expr.Misread p q n) (h : Continues start stock m)
    (hbegins : start.Begins (.noRows .logical) (filterOn ⟨0⟩ (Expr.allOf [p, q])))
    (hcopies : start.Copies (Plan.misreading p q n) 4) (hmerged : m.Merged) :
    ∀ j, 1 ≤ j → j ≤ 4 → m.groupOf ⟨j⟩ = .ok ⟨1⟩ := by
  have hnode {j : Nat} {k : Node} (hj : j ≤ 4)
      (hk : (Plan.misreading p q n).arena.get ⟨j⟩ = .ok k) : m.node ⟨j⟩ = .ok k :=
    h.grown.node _ _ ((hcopies.node j hj).trans hk)
  have hbottom : m.groupOf ⟨0⟩ = .ok ⟨0⟩ := h.groupOf hbegins (by decide)
  have hfirst : m.Has ⟨1⟩ (filterOn ⟨0⟩ (Expr.allOf [p, q])) ⟨1⟩ :=
    ⟨hnode (by decide) rfl, h.groupOf hbegins (by decide)⟩
  have hknown : m.digests[digestText (filterOn ⟨0⟩ (Expr.allOf [p, q])) [⟨0⟩]]? = some ⟨1⟩ :=
    h.grown.digests _ _ (hcopies.known 1 (by decide) _ rfl)
  -- merging with the first filter gives the first filter again
  have hjoins {r i : NodeId} {e : Expr} (he : e ∈ [p, q]) (hr : m.node r = .ok (filterOn i e))
      (hi : m.groupOf i = .ok ⟨1⟩) : m.Has r (filterOn i e) ⟨1⟩ := by
    obtain ⟨g, hg⟩ := h.wellFormed.exists_groupOf (Arena.lt_size_of_get hr)
    obtain ⟨q', hq', hgroup⟩ := hmerged ⟨hr, hg⟩ rfl rfl hi hfirst rfl rfl (Nat.zero_le 1)
    rw [Node.overLower_filterOn, hmisread.merged_same he] at hq'
    obtain rfl : ⟨1⟩ = q' := Option.some.inj (hknown.symm.trans hq')
    obtain rfl : ⟨1⟩ = g := Except.ok.inj (hfirst.group.symm.trans hgroup)
    exact ⟨hr, hg⟩
  have hsecond := hjoins (i := ⟨1⟩) (by simp) (hnode (j := 2) (by decide) rfl) hfirst.group
  have hthird := hjoins (i := ⟨2⟩) (by simp) (hnode (j := 3) (by decide) rfl) hsecond.group
  -- over the second filter the last two give filters of one text
  have hlast : m.node ⟨4⟩ = .ok (filterOn ⟨3⟩ n) := hnode (by decide) rfl
  obtain ⟨g, hg⟩ := h.wellFormed.exists_groupOf (Arena.lt_size_of_get hlast)
  obtain ⟨q₁, hq₁, hgroup₁⟩ := hmerged hthird rfl rfl hsecond.group hsecond rfl rfl (Nat.le_refl 1)
  obtain ⟨q₂, hq₂, hgroup₂⟩ := hmerged ⟨hlast, hg⟩ rfl rfl hthird.group hsecond rfl rfl
    (Nat.le_refl 1)
  rw [Node.overLower_filterOn, hmisread.merged_apart] at hq₁
  rw [Node.overLower_filterOn, hmisread.merged_nan,
    Node.digestText_filterOn hmisread.text_allOf] at hq₂
  obtain rfl : q₁ = q₂ := Option.some.inj (hq₁.symm.trans hq₂)
  obtain rfl : ⟨1⟩ = g := Except.ok.inj (hgroup₁.symm.trans hgroup₂)
  intro j hj hj'
  interval_cases j
  · exact hfirst.group
  · exact hsecond.group
  · exact hthird.group
  · exact hg

/-- Each filter on the bottom gives one with a conjunct more. -/
theorem exists_longer (hmisread : Expr.Misread p q n) (h : Continues start stock m)
    (hstock : Node.Unassigned stock)
    (hbegins : start.Begins (.noRows .logical) (filterOn ⟨0⟩ (Expr.allOf [p, q])))
    (hcopies : start.Copies (Plan.misreading p q n) 4) (hmerged : m.Merged) (length : Nat) :
    ∃ id k condition, m.Has id k ⟨1⟩ ∧ k.convention = .logical ∧ k.op = .filter ⟨0⟩ condition ∧
      length ≤ condition.conjuncts.length := by
  have hgroups := groupOf_filters hmisread h hbegins hcopies hmerged
  have hbottom : m.groupOf ⟨0⟩ = .ok ⟨0⟩ := h.groupOf hbegins (by decide)
  induction length with
  | zero =>
    have hnode : m.node ⟨1⟩ = .ok (filterOn ⟨0⟩ (Expr.allOf [p, q])) :=
      h.grown.node _ _ (hcopies.node 1 (by decide))
    exact ⟨⟨1⟩, _, _, ⟨hnode, hgroups 1 (by decide) (by decide)⟩, rfl, rfl, Nat.zero_le _⟩
  | succ length ih =>
    obtain ⟨id, k, condition, hk, hlogical, hop, hlength⟩ := ih
    have hlast : m.node ⟨4⟩ = .ok (filterOn ⟨3⟩ n) := h.grown.node _ _ (hcopies.node 4 (by decide))
    obtain ⟨q', hq', hgroup⟩ := hmerged ⟨hlast, hgroups 4 (by decide) (by decide)⟩ rfl rfl
      (hgroups 3 (by decide) (by decide)) hk hlogical hop (Nat.zero_le 1)
    obtain ⟨k', j, condition', hk', hop', hconvention, hreads, hj⟩ :=
      h.filter_of_known hstock rfl rfl hq'
    rw [h.wellFormed.find_of_groupOf hbottom] at hj
    -- it stands on the bottom, for the filters of the plan are in another group
    have hzero : j = ⟨0⟩ := by
      have hlt := h.inputs q' k' j condition' hk' hop'
      have hsize := hcopies.size_eq
      rcases Nat.eq_zero_or_pos j.n with hj' | hpos
      · cases j
        exact congrArg NodeId.mk hj'
      · have hone := hgroups j.n hpos (by omega)
        cases hj.symm.trans hone
    subst hzero
    refine ⟨q', k', condition', ⟨hk', hgroup⟩, hconvention, hop', ?_⟩
    have hconjuncts := hreads.conjuncts.length_eq
    rw [conjuncts_mergedCondition, hmisread.mergedConjuncts_nan, List.length_append] at hconjuncts
    simp only [List.length_singleton] at hconjuncts
    omega

/-- So the filters cannot all have been merged. -/
theorem not_merged (hmisread : Expr.Misread p q n) (h : Continues start stock m)
    (hstock : Node.Unassigned stock)
    (hbegins : start.Begins (.noRows .logical) (filterOn ⟨0⟩ (Expr.allOf [p, q])))
    (hcopies : start.Copies (Plan.misreading p q n) 4) : ¬m.Merged := by
  intro hmerged
  let lengths : Set Nat := {l | ∃ k ∈ m.arena.nodes.toList, ∃ i condition,
    k.op = .filter i condition ∧ l = condition.conjuncts.length}
  have hfinite : lengths.Finite := by
    refine ((List.finite_toSet m.arena.nodes.toList).biUnion (t := fun k => {l | ∃ i condition,
      k.op = .filter i condition ∧ l = condition.conjuncts.length})
        fun k _ => Set.Subsingleton.finite ?_).subset ?_
    · rintro _ ⟨i, c, hop, rfl⟩ _ ⟨j, d, hop', rfl⟩
      obtain ⟨-, rfl⟩ := RelOp.filter.inj (hop.symm.trans hop')
      rfl
    · rintro l ⟨k, hk, h⟩
      exact Set.mem_biUnion hk h
  obtain ⟨most, hmost⟩ := hfinite.bddAbove
  obtain ⟨id, k, condition, hk, -, hop, hlength⟩ :=
    exists_longer hmisread h hstock hbegins hcopies hmerged (most + 1)
  have hmem : k ∈ m.arena.nodes.toList :=
    Array.mem_toList_iff.mpr (Array.mem_of_getElem? (Arena.get_eq_ok.mp hk.node))
  have hle := hmost ⟨k, hmem, _, condition, hop, rfl⟩
  omega

end Memo.Continues

namespace Plan

variable {known : TableRef → Prop} {p q n : Expr}

/-- A plan is copied into a memo of nodes that are drawn from it. -/
theorem Chain.exists_copy {plan : Plan} (hchain : plan.Chain known) (rows : Float) :
    ∃ m root, Memo.ofPlan plan rows = .ok (m, root) ∧ m.Copies plan plan.root.n ∧
      m.Drawn plan.nodes := by
  obtain ⟨⟨m, root⟩, hofPlan, hcopies⟩ := (Memo.ofPlan_copies hchain rows).exists_result
  exact ⟨m, root, hofPlan, hcopies, (hchain.ofPlan_drawn rows).result hofPlan⟩

/-- With a conjunct whose NaN its text does not show, exploration may never end because a
    round changes nothing. -/
theorem explore_never_settles (hmisread : Expr.Misread p q n)
    (hp : (misreading p q n).Built known) (rows : Float) :
    ∃ m root, Memo.ofPlan (misreading p q n) rows = .ok (m, root) ∧
      ∀ s e, m.explore .defaults s ≠ .ok (.settled, e) := by
  have hchain := hp.chain
  obtain ⟨m, root, hofPlan, hcopies, hdrawn⟩ := hchain.exists_copy rows
  have hm := hdrawn.wellFormed
  refine ⟨m, root, hofPlan, fun s e he => ?_⟩
  have hhas {j : Nat} {k : Node} (hj : j ≤ 4) (hk : (misreading p q n).arena.get ⟨j⟩ = .ok k) :
      m.Has ⟨j⟩ k ⟨j⟩ := ⟨(hcopies.node j hj).trans hk, hcopies.groupOf j hj⟩
  have hbegins : m.Begins (.noRows .logical) (filterOn ⟨0⟩ (Expr.allOf [p, q])) :=
    ⟨hm, hhas (by decide) rfl, hhas (by decide) rfl, by rintro ⟨⟩⟩
  have hstart : m.Continues (misreading p q n).nodes m := by
    refine ⟨hm, .refl m, hdrawn.kinds, fun id k i condition hk hop => ?_⟩
    exact hm.input_lt hk (by simp [Node.inputs, hop, RelOp.inputs])
  have hended := (Memo.explore_ends (Memo.mergingPlot hbegins _) hstart).result he
  have hcontinues : m.Continues (misreading p q n).nodes e.memo := hended.holds.invariant
  exact hcontinues.not_merged hmisread hchain.unassigned hbegins hcopies
    (Memo.merged_of_saturated hcontinues.wellFormed (hended.settled rfl))

/-! ### Casts of two operands -/

/-- A cast whose text does not show the value. -/
def castBeside (v : Value) : Expr := .call .cast [.trueLit, .lit v] .bool

theorem castBeside_misread : Expr.Misread (castBeside (.bool true)) (castBeside (.bool false))
    (castBeside (.double Float.nan)) where
  single e he := by
    simp only [List.mem_cons, List.not_mem_nil, or_false] at he
    rcases he with rfl | rfl | rfl <;> rfl
  number e he := by
    simp only [List.mem_cons, List.not_mem_nil, or_false] at he
    rcases he with rfl | rfl <;> exact List.not_mem_nil
  ne := rfl
  nan := List.mem_cons_self
  text_eq := rfl

/-- The plan of such casts. -/
def castsBeside : Plan :=
  misreading (castBeside (.bool true)) (castBeside (.bool false)) (castBeside (.double Float.nan))

theorem castsBeside_built : castsBeside.Built known := by
  let both := Expr.allOf [castBeside (.bool true), castBeside (.bool false)]
  have hfirst := (@noRows_built known).step (c := {}) (s := .filter both) rfl
  have hsecond := hfirst.step (c := {}) (s := .filter (castBeside (.bool true))) rfl
  have hthird := hsecond.step (c := {}) (s := .filter (castBeside (.bool false))) rfl
  exact hthird.step (c := {}) (s := .filter (castBeside (.double Float.nan))) rfl

theorem explore_castsBeside_never_settles :
    castsBeside.Built (fun _ => False) ∧ ∃ m root, Memo.ofPlan castsBeside 100 = .ok (m, root) ∧
      ¬∃ bound, ∀ s : OptimizerSettings, bound ≤ s.maxIterations → bound ≤ s.maxRuleFirings →
        ∃ e, m.explore .defaults s = .ok (.settled, e) := by
  obtain ⟨m, root, hofPlan, hnever⟩ :=
    explore_never_settles castBeside_misread (@castsBeside_built fun _ => False) 100
  refine ⟨castsBeside_built, m, root, hofPlan, ?_⟩
  rintro ⟨bound, hbound⟩
  obtain ⟨e, he⟩ := hbound { maxIterations := bound, maxRuleFirings := bound } (Nat.le_refl _)
    (Nat.le_refl _)
  exact hnever _ e he

end Plan

end Polystore
