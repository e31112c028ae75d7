import Polystore.Proofs.GroupMarks
import Polystore.Proofs.MergedConjuncts
import Polystore.Proofs.Rules

/-
  Polystore/Proofs/DrawnNodes.lean
  ================================
  **What the rules without a store make of a plan.**  A memo that starts with the nodes
  of a plan, and on which only the default rules run, holds nodes of four forms: those of
  the plan, filters that have been merged, projections below an aggregate of the plan,
  and this aggregate over them (`Node.From`); and their local twins.  A trimmed aggregate
  stands on a projection, so that it is not trimmed again.

  All members of a group have one operator, which is kept as the mark of the group
  (`Marked.drawn_inserted`).
-/

namespace Polystore

open FilterMerge (Gathered)

/-! ### Nodes drawn from a stock -/

/-- The conjuncts of the filters in a stock. -/
def Node.conditions (stock : Set Node) : Set (List Expr) :=
  {es | ∃ n ∈ stock, ∃ i condition, n.op = .filter i condition ∧ es = condition.conjuncts}

/-- A projection to the fields that an aggregate of the stock reads. -/
def Node.Trims (stock : Set Node) (n : Node) : Prop :=
  ∃ top ∈ stock, ∃ below ∈ stock, ∃ i j a, top.op = .aggregate i a ∧
    AggregateTrim.projection (AggregateTrim.usedFields a) j below.row = .ok n

/-- A logical node that the rules can make of a stock, over inputs in groups with these
    operators. -/
inductive Node.From (stock : Set Node) (inputs : List RelKind) : Node → Prop
  | own {n : Node} (h : n ∈ stock) (ids : List NodeId) : From stock inputs (n.withInputs ids)
  | merged {top : Node} {es : List Expr} (htop : top ∈ stock)
    (hes : Gathered (conditions stock) es) (i : NodeId) :
    From stock inputs ⟨.filter i (Expr.allOf es), top.traits, top.row, none⟩
  | trims {n : Node} (h : n.Trims stock) : From stock inputs n
  | trimmed {top : Node} {i : NodeId} {a a' : Aggregation} (htop : top ∈ stock)
    (hop : top.op = .aggregate i a)
    (ha : AggregateTrim.trimmed (AggregateTrim.usedFields a) a = .ok a')
    (hinputs : inputs = [.project]) (j : NodeId) :
    From stock inputs ⟨.aggregate j a', top.traits, top.row, none⟩

/-- A node in a group of its operator: one that the rules make, or its local twin. -/
structure Node.Drawn (stock : Set Node) (n : Node) (inputs : List RelKind) (kind : RelKind) :
    Prop where
  kind_eq : kind = n.kind
  source : ∃ k, From stock inputs k ∧ (n = k ∨ n = k.withConvention .enumerable)

theorem RelOp.exists_filter {op : RelOp} {ids : List NodeId} {i : NodeId} {condition : Expr}
    (h : op.withInputs ids = .filter i condition) : ∃ j, op = .filter j condition := by
  cases op <;> cases ids <;> simp_all [RelOp.withInputs]

theorem RelOp.exists_aggregate {op : RelOp} {ids : List NodeId} {i : NodeId} {a : Aggregation}
    (h : op.withInputs ids = .aggregate i a) : ∃ j, op = .aggregate j a := by
  cases op <;> cases ids <;> simp_all [RelOp.withInputs]

namespace Node

variable {stock : Set Node} {inputs : List RelKind} {kind : RelKind} {n : Node}

/-- The nodes of a plan: none has been handed to an engine. -/
def Unassigned (stock : Set Node) : Prop :=
  ∀ n ∈ stock, n.convention = .logical ∧ n.native = none

theorem From.unassigned (hstock : Unassigned stock) (h : From stock inputs n) :
    n.convention = .logical ∧ n.native = none := by
  cases h with
  | own h ids => exact ⟨(hstock _ h).1, (hstock _ h).2⟩
  | merged htop hes i => exact ⟨(hstock _ htop).1, rfl⟩
  | trims h =>
    obtain ⟨top, -, below, -, i, j, a, -, hn⟩ := h
    obtain ⟨exprs, row, rfl⟩ := AggregateTrim.projection_eq_ok hn
    exact ⟨rfl, rfl⟩
  | trimmed htop hop ha hinputs j => exact ⟨(hstock _ htop).1, rfl⟩

theorem Trims.kind_eq (h : n.Trims stock) : n.kind = .project := by
  obtain ⟨top, -, below, -, i, j, a, -, hn⟩ := h
  obtain ⟨exprs, row, rfl⟩ := AggregateTrim.projection_eq_ok hn
  rfl

/-- Only projections make new row types. -/
theorem From.row (h : From stock inputs n) (hkind : n.kind ≠ .project) :
    ∃ k ∈ stock, k.row = n.row := by
  cases h with
  | own h ids => exact ⟨_, h, rfl⟩
  | merged htop hes i => exact ⟨_, htop, rfl⟩
  | trims h => exact absurd h.kind_eq hkind
  | trimmed htop hop ha hinputs j => exact ⟨_, htop, rfl⟩

theorem From.filter (h : From stock inputs n) {i : NodeId} {condition : Expr}
    (hop : n.op = .filter i condition) : Gathered (conditions stock) condition.conjuncts ∧
      ∃ top ∈ stock, top.traits = n.traits ∧ top.row = n.row := by
  cases h with
  | @own k h ids =>
    obtain ⟨i', hop'⟩ := RelOp.exists_filter hop
    exact ⟨.of_mem ⟨k, h, i', condition, hop', rfl⟩, k, h, rfl, rfl⟩
  | merged htop hes i' =>
    obtain ⟨-, rfl⟩ := RelOp.filter.inj hop
    rw [Expr.conjuncts_allOf fun c hc => ?_]
    · exact ⟨hes, _, htop, rfl, rfl⟩
    · obtain ⟨cs, ⟨_, -, _, _, -, rfl⟩, hc⟩ := hes.mem hc
      exact Expr.conjuncts_of_mem_conjuncts hc
  | trims h =>
    have hkind := h.kind_eq
    rw [Node.kind, hop] at hkind
    cases hkind
  | trimmed htop hop' ha hinputs j => cases hop

/-- An aggregate over anything but a projection is one of the stock. -/
theorem From.aggregate (h : From stock inputs n) {i : NodeId} {a : Aggregation}
    (hop : n.op = .aggregate i a) (hinputs : inputs ≠ [.project]) :
    ∃ top ∈ stock, (∃ j, top.op = .aggregate j a) ∧ top.traits = n.traits ∧ top.row = n.row := by
  cases h with
  | @own k h ids => exact ⟨k, h, RelOp.exists_aggregate hop, rfl, rfl⟩
  | merged htop hes i' => cases hop
  | trims h =>
    have hkind := h.kind_eq
    rw [Node.kind, hop] at hkind
    cases hkind
  | trimmed htop hop' ha hinputs' j => exact absurd hinputs' hinputs

theorem Drawn.from (h : n.Drawn stock inputs kind) (hlogical : n.convention = .logical) :
    From stock inputs n := by
  obtain ⟨k, hk, rfl | rfl⟩ := h.source
  · exact hk
  · cases hlogical

theorem From.drawn (h : From stock inputs n) : n.Drawn stock inputs n.kind :=
  ⟨rfl, n, h, .inl rfl⟩

end Node

/-! ### What the rules offer is drawn -/

namespace Memo

variable {stock : Set Node} {m m' : Memo Float} {kind : GroupId → RelKind} {n : Node}
  {target : Option GroupId} {gs : List GroupId}

/-- What the rules offer is drawn from the stock, and it is put where it belongs.  A
    projection below an aggregate stands on a group that has no projections. -/
theorem Offer.drawn (hm : m.WellFormed) (h : m.Marked (Node.Drawn stock) kind)
    (hoffer : m.Offer (fun _ => False) n target) (hgs : n.inputs.mapM m.groupOf = .ok gs) :
    n.Drawn stock (gs.map kind) n.kind ∧ (∀ g, target = some g → kind (m.find g) = n.kind) ∧
      (target = none → n.Trims stock ∧ ∃ below, gs = [below] ∧ kind below ≠ .project) := by
  have hkind {i : NodeId} {k : Node} {g : GroupId} (hk : m.Has i k g) : kind g = k.kind := by
    obtain ⟨hs, hhs⟩ := hm.exists_inputGroups hk.node
    exact (h i k g hs hk hhs).kind_eq
  have hfound {i : NodeId} {k : Node} {g : GroupId} (hk : m.Has i k g) (hkn : n.kind = k.kind) :
      ∀ g', some g = some g' → kind (m.find g') = n.kind := by
    rintro _ ⟨⟩
    rw [hm.find_of_groupOf hk.group, hkind hk, hkn]
  -- an aggregate to be trimmed, with its input
  have haggregate {r i k : NodeId} {root below : Node} {g g' : GroupId} {a : Aggregation}
      (hroot : m.Has r root g) (hlogical : root.convention = .logical)
      (hop : root.op = .aggregate i a) (hinput : m.groupOf i = .ok g') (hbelow : m.Has k below g')
      (hproject : below.kind ≠ .project) : kind g' ≠ .project ∧
        ∃ top ∈ stock, (∃ j, top.op = .aggregate j a) ∧ top.traits = root.traits ∧
          top.row = root.row := by
    have hne : kind g' ≠ .project := hkind hbelow ▸ hproject
    have hinputs : root.inputs = [i] := by simp [Node.inputs, hop, RelOp.inputs]
    have hfrom := (h.over hroot hinputs hinput).from hlogical
    exact ⟨hne, hfrom.aggregate hop (by simpa using hne)⟩
  cases hoffer with
  | @locally r root g hroot hlogical hoperator =>
    have hfrom := (h r root g gs hroot hgs).from hlogical
    exact ⟨⟨rfl, root, hfrom, .inr rfl⟩, hfound hroot rfl, by simp⟩
  | @mergedFilter r i k j root below g g' upper lower hroot hlogical hop hinput hbelow hlogical'
      hop' =>
    obtain ⟨hs, hhs⟩ := hm.exists_inputGroups hbelow.node
    have hinputs : root.inputs = [i] := by simp [Node.inputs, hop, RelOp.inputs]
    obtain ⟨hupper, top, htop, htraits, hrow⟩ :=
      ((h.over hroot hinputs hinput).from hlogical).filter hop
    obtain ⟨hlower, -⟩ := ((h k below g' hs hbelow hhs).from hlogical').filter hop'
    rw [← htraits, ← hrow]
    exact ⟨(Node.From.merged htop (hlower.merged hupper) j).drawn,
      hfound hroot (by simp [Node.kind, hop, RelOp.kind]), by simp⟩
  | @projection r i k root below n g g' a hroot hlogical hop hinput hbelow hlogical' hproject hn =>
    obtain ⟨hne, top, htop, ⟨j, hop'⟩, -⟩ := haggregate hroot hlogical hop hinput hbelow hproject
    obtain ⟨hs, hhs⟩ := hm.exists_inputGroups hbelow.node
    obtain ⟨source, hsource, hrow⟩ := ((h k below g' hs hbelow hhs).from hlogical').row hproject
    rw [(AggregateTrim.projection_inputs hn).1] at hgs
    obtain rfl := mapM_singleton hgs hbelow.group
    have htrims : n.Trims stock := ⟨top, htop, source, hsource, j, k, a, hop', hrow ▸ hn⟩
    exact ⟨(Node.From.trims htrims).drawn, by simp, fun _ => ⟨htrims, g', rfl, hne⟩⟩
  | @trimmed r i k p root below n g g' a a' hroot hlogical hop hinput hbelow hlogical' hproject hn
      hkeeps ha =>
    obtain ⟨-, top, htop, ⟨j, hop'⟩, htraits, hrow⟩ :=
      haggregate hroot hlogical hop hinput hbelow hproject
    obtain ⟨gp, hgp⟩ := hm.exists_groupOf hkeeps.lt_size
    obtain ⟨kept, -, hkept, hsame, -⟩ := hkeeps.exists_alike
    obtain rfl := mapM_singleton hgs hgp
    have hprojects : kind gp = .project := by
      rw [hkind ⟨hkept, hgp⟩, hsame, (AggregateTrim.projection_inputs hn).2.1]
    rw [← htraits, ← hrow]
    exact ⟨(Node.From.trimmed htop hop' ha (by simp [hprojects]) p).drawn,
      hfound hroot (by simp [Node.kind, hop, RelOp.kind]), by simp⟩
  | scan hknown => exact hknown.elim
  | pushed hknown => exact hknown.elim
  | part hknown => exact hknown.elim
  | residual hknown => exact hknown.elim
  | convert hknown => exact hknown.elim

/-- Inserting what is drawn where it belongs keeps all groups to one operator. -/
theorem Marked.drawn_inserted (hm : m.WellFormed) (h : m.Marked (Node.Drawn stock) kind)
    {id : NodeId} (hdrawn : n.Drawn stock (gs.map kind) n.kind)
    (hat : ∀ g, target = some g → kind (m.find g) = n.kind)
    (hgs : n.inputs.mapM m.groupOf = .ok gs)
    (htarget : ∀ g, target = some g → g.n < m.groups.size)
    (hinserted : m.Inserted n gs target id m') : ∃ kind', m'.Marked (Node.Drawn stock) kind' ∧
      ∀ g, kind' g = kind g ∨ target = none ∧ kind' g = n.kind := by
  have htold (i : NodeId) (k : Node) (at' : RelKind) (_ : m.node i = .ok k)
      (hd : digestText k gs = digestText n gs) (hlength : gs.length = k.inputs.length)
      (hk : k.Drawn stock (gs.map kind) at') : at' = n.kind := by
    rw [hk.kind_eq]
    exact (digestText_inj (mapM_eq_ok.mp hgs).length_eq.symm hlength hd).1
  obtain ⟨kind', hmarked, -, hkind⟩ := h.insert hm hgs htarget hdrawn hat htold hinserted
  exact ⟨kind', hmarked, hkind⟩

end Memo

end Polystore
