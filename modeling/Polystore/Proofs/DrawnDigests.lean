import Polystore.Proofs.MergeWeights

/-
  Polystore/Proofs/DrawnDigests.lean
  ==================================
  **The digests of a finite stock.**  A digest shows the groups of the inputs, but not
  their numbers.  Without these only finitely many nodes of a bounded weight can be drawn
  from a finite stock (`Node.finite_shapes`), and over finitely many groups they have
  finitely many digests.
-/

namespace Polystore

open FilterMerge (Gathered)

namespace Node

variable {stock : Set Node} {n : Node} {inputs : List RelKind} {kind : RelKind}

theorem withInputs_withInputs (n : Node) (ids : List NodeId) (i : NodeId) :
    (n.withInputs ids).withInputs [i] = n.withInputs [i] := by
  rcases n with ⟨op, traits, row, native⟩
  cases ids <;> cases op <;> rfl

theorem projection_withInputs {used : OrdinalSet} {j : NodeId} {row : RowType}
    (h : AggregateTrim.projection used j row = .ok n) (i : NodeId) :
    AggregateTrim.projection used i row = .ok (n.withInputs [i]) := by
  obtain ⟨exprs, hexprs, h⟩ := except_bind_eq_ok.mp h
  obtain ⟨row', hrow, h⟩ := except_bind_eq_ok.mp h
  obtain rfl := Except.ok.inj h
  exact except_bind_eq_ok.mpr ⟨exprs, hexprs, except_bind_eq_ok.mpr ⟨row', hrow, rfl⟩⟩

/-! ### Shapes -/

/-- Nodes of a bounded weight that can be drawn from a stock, without the numbers of their
    inputs. -/
def shapes (stock : Set Node) (bound : Nat) : Set Node :=
  {s | ∃ (n : Node) (inputs : List RelKind) (kind : RelKind), n.Drawn stock inputs kind ∧
    n.weight [] ≤ bound ∧ s = n.withInputs [⟨0⟩]}

theorem finite_conditions (hstock : stock.Finite) : (conditions stock).Finite := by
  refine (hstock.biUnion (t := fun n => {es | ∃ i condition, n.op = .filter i condition ∧
    es = condition.conjuncts}) fun n _ => Set.Subsingleton.finite ?_).subset ?_
  · rintro _ ⟨i, c, hop, rfl⟩ _ ⟨j, d, hop', rfl⟩
    obtain ⟨-, rfl⟩ := RelOp.filter.inj (hop.symm.trans hop')
    rfl
  · rintro es ⟨n, hn, i, condition, hop, rfl⟩
    exact Set.mem_biUnion hn ⟨i, condition, hop, rfl⟩

theorem finite_merged (hstock : stock.Finite) (bound : Nat) :
    {s : Node | ∃ top ∈ stock, ∃ es, Gathered (conditions stock) es ∧ Expr.nans es ≤ bound ∧
      s = ⟨.filter ⟨0⟩ (Expr.allOf es), top.traits, top.row, none⟩}.Finite := by
  have hes := FilterMerge.finite_gathered (finite_conditions hstock) bound
  refine (hstock.image2 (fun top es =>
    (⟨.filter ⟨0⟩ (Expr.allOf es), top.traits, top.row, none⟩ : Node)) hes).subset ?_
  rintro _ ⟨top, htop, es, hgathered, hnans, rfl⟩
  exact ⟨top, htop, es, ⟨hgathered, hnans⟩, rfl⟩

theorem finite_trims (hstock : stock.Finite) :
    {s : Node | ∃ n : Node, n.Trims stock ∧ s = n.withInputs [⟨0⟩]}.Finite := by
  refine (hstock.biUnion (t := fun top => ⋃ below ∈ stock, {s : Node | ∃ i a,
    top.op = .aggregate i a ∧
      AggregateTrim.projection (AggregateTrim.usedFields a) ⟨0⟩ below.row = .ok s}) fun top _ =>
      hstock.biUnion fun below _ => Set.Subsingleton.finite ?_).subset ?_
  · rintro s ⟨i, a, hop, hs⟩ s' ⟨i', a', hop', hs'⟩
    obtain ⟨-, rfl⟩ := RelOp.aggregate.inj (hop.symm.trans hop')
    exact Except.ok.inj (hs.symm.trans hs')
  · rintro _ ⟨n, ⟨top, htop, below, hbelow, i, j, a, hop, hn⟩, rfl⟩
    exact Set.mem_biUnion htop (Set.mem_biUnion hbelow ⟨i, a, hop, projection_withInputs hn _⟩)

theorem finite_trimmed (hstock : stock.Finite) :
    {s : Node | ∃ top ∈ stock, ∃ i a a', top.op = .aggregate i a ∧
      AggregateTrim.trimmed (AggregateTrim.usedFields a) a = .ok a' ∧
      s = ⟨.aggregate ⟨0⟩ a', top.traits, top.row, none⟩}.Finite := by
  refine (hstock.biUnion (t := fun top => {s : Node | ∃ i a a', top.op = .aggregate i a ∧
    AggregateTrim.trimmed (AggregateTrim.usedFields a) a = .ok a' ∧
    s = ⟨.aggregate ⟨0⟩ a', top.traits, top.row, none⟩}) fun top _ =>
      Set.Subsingleton.finite ?_).subset ?_
  · rintro _ ⟨i, a, b, hop, hb, rfl⟩ _ ⟨i', a', b', hop', hb', rfl⟩
    obtain ⟨-, rfl⟩ := RelOp.aggregate.inj (hop.symm.trans hop')
    rw [Except.ok.inj (hb.symm.trans hb')]
  · rintro s ⟨top, htop, h⟩
    exact Set.mem_biUnion htop h

/-- Finitely many nodes are drawn from a finite stock, up to the numbers of inputs. -/
theorem finite_shapes (hstock : stock.Finite) (bound : Nat) : (shapes stock bound).Finite := by
  have hlogical : {s : Node | ∃ (n : Node) (inputs : List RelKind), From stock inputs n ∧
      n.weight [] ≤ bound ∧ s = n.withInputs [⟨0⟩]}.Finite := by
    refine ((hstock.image (·.withInputs [⟨0⟩])).union ((finite_merged hstock bound).union
      ((finite_trims hstock).union (finite_trimmed hstock)))).subset ?_
    rintro _ ⟨n, inputs, hn, hweight, rfl⟩
    cases hn with
    | @own k hk ids => exact .inl ⟨k, hk, (withInputs_withInputs k ids _).symm⟩
    | @merged top es htop hes i =>
      refine .inr (.inl ⟨top, htop, es, hes, ?_, rfl⟩)
      rw [weight_filter rfl, Expr.conjuncts_allOf fun c hc => ?_] at hweight
      · simpa using hweight
      · obtain ⟨cs, ⟨_, -, _, _, -, rfl⟩, hc⟩ := hes.mem hc
        exact Expr.conjuncts_of_mem_conjuncts hc
    | trims h => exact .inr (.inr (.inl ⟨n, h, rfl⟩))
    | @trimmed top i a a' htop hop ha hinputs j =>
      exact .inr (.inr (.inr ⟨top, htop, i, a, a', hop, ha, rfl⟩))
  refine (hlogical.union (hlogical.image (·.withConvention .enumerable))).subset ?_
  rintro _ ⟨n, inputs, kind, hn, hweight, rfl⟩
  obtain ⟨k, hk, rfl | rfl⟩ := hn.source
  · exact .inl ⟨n, inputs, hk, hweight, rfl⟩
  · exact .inr ⟨_, ⟨k, inputs, hk, hweight, rfl⟩, rfl⟩

/-! ### Digests -/

theorem weight_nil_le (n : Node) (below : List Nat) : n.weight [] ≤ n.weight below := by
  rw [weight, weight]
  cases n.op with
  | filter i condition => exact Nat.add_le_add_left (Nat.zero_le _) _
  | _ => exact Nat.le_refl _

/-- The groups of the inputs of a node, where there are so many groups. -/
def Over (groups : Nat) (gs : List GroupId) : Prop := gs.length ≤ 1 ∧ ∀ g ∈ gs, g.n < groups

theorem finite_over (groups : Nat) : {gs | Over groups gs}.Finite := by
  refine (((Set.finite_lt_nat groups).image fun i => [GroupId.mk i]).insert []).subset ?_
  rintro gs ⟨hlength, hgs⟩
  match gs with
  | [] => exact .inl rfl
  | [g] => exact .inr ⟨g.n, hgs g (by simp), rfl⟩
  | _ :: _ :: _ => simp at hlength

/-- Over so many groups they have finitely many digests. -/
theorem finite_digests (hstock : stock.Finite) (bound groups : Nat) :
    {d | ∃ (n : Node) (inputs : List RelKind) (kind : RelKind) (gs : List GroupId),
      n.Drawn stock inputs kind ∧ n.weight [] ≤ bound ∧ Over groups gs ∧
      d = Memo.digestText n gs}.Finite := by
  refine ((finite_shapes hstock bound).image2 Memo.digestText (finite_over groups)).subset ?_
  rintro _ ⟨n, inputs, kind, gs, hn, hweight, hgs, rfl⟩
  exact ⟨n.withInputs [⟨0⟩], ⟨n, inputs, kind, hn, hweight, rfl⟩, gs, hgs,
    Memo.digestText_withInputs n _ gs⟩

/-- The digests of projections below an aggregate, over the first groups. -/
theorem finite_trims_digests (hstock : stock.Finite) (groups : Nat) :
    {d | ∃ (n : Node) (g : GroupId), n.Trims stock ∧ g.n < groups ∧
      d = Memo.digestText n [g]}.Finite := by
  refine (finite_digests hstock 0 groups).subset ?_
  rintro _ ⟨n, g, hn, hg, rfl⟩
  have hweight : n.weight [] = 0 := weight_of_kind (by simp [hn.kind_eq])
  refine ⟨n, [], n.kind, [g], (From.trims hn).drawn, hweight.le, ⟨Nat.le_refl 1, ?_⟩, rfl⟩
  simpa using hg

end Node

end Polystore
