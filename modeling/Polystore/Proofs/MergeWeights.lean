import Polystore.Proofs.DrawnNodes
import Polystore.Proofs.NodeIdentity

/-
  Polystore/Proofs/MergeWeights.lean
  ==================================
  **What merging filters keeps.**  A conjunct with a NaN does not equal itself, so each
  merge brings it in once more.  But a merged filter stands below the two for which it is
  put, and the NaN conjuncts in it and in the filters below it are as many as in those
  two and below them.  Their number is the weight of a group, which all of its members
  have (`Marked.weighed_inserted`), as long as digests show each NaN.
-/

namespace Polystore

open FilterMerge (Gathered)
open Polystore.Expr (nans)

/-! ### Weights of nodes -/

namespace Node

/-- The NaN conjuncts in a filter and in the filters below it. -/
def weight (n : Node) (below : List Nat) : Nat :=
  match n.op with
  | .filter _ condition => nans condition.conjuncts + below.sum
  | _ => 0

/-- A node is in a group of its weight. -/
def Weighs (n : Node) (below : List Nat) (w : Nat) : Prop := w = n.weight below

/-- No filter in a stock has a conjunct that hides a NaN. -/
def Shown (stock : Set Node) : Prop := ∀ es ∈ conditions stock, ∀ e ∈ es, ¬e.HidesNan

variable {stock : Set Node} {k n : Node} {inputs inputs' : List RelKind} {kind kind' : RelKind}
  {below : List Nat}

theorem weight_filter {i : NodeId} {condition : Expr} (h : n.op = .filter i condition) :
    n.weight below = nans condition.conjuncts + below.sum := by
  simp only [weight, h]

theorem weight_of_kind (h : n.kind ≠ .filter) : n.weight below = 0 := by
  rw [Node.kind] at h
  cases hop : n.op with
  | filter i condition => exact absurd (by rw [hop]; rfl) h
  | _ => simp only [weight, hop]

theorem Drawn.gathered (h : n.Drawn stock inputs kind) {i : NodeId} {condition : Expr}
    (hop : n.op = .filter i condition) : Gathered (conditions stock) condition.conjuncts := by
  obtain ⟨k, hk, rfl | rfl⟩ := h.source
  · exact (hk.filter hop).1
  · exact (From.filter (n := k) hk hop).1

theorem Drawn.storeName?_eq_none (hstock : Unassigned stock) (h : n.Drawn stock inputs kind) :
    n.convention.storeName? = none := by
  obtain ⟨k, hk, rfl | rfl⟩ := h.source
  · rw [(hk.unassigned hstock).1]
    rfl
  · rfl

/-- A digest tells the condition of a filter that is not run by a store. -/
theorem filter_of_digestText (hk : k.convention.storeName? = none)
    (hn : n.convention.storeName? = none) {i j : NodeId} {condition condition' : Expr}
    (hop : k.op = .filter i condition) (hop' : n.op = .filter j condition') {gs hs : List GroupId}
    (h : Memo.digestText k hs = Memo.digestText n gs) :
    k.convention = n.convention ∧ condition.ReadsAs condition' := by
  have hlist := congrArg String.toList h
  simp only [Memo.digestText, String.toList_append, List.append_assoc] at hlist
  obtain ⟨⟨hconvention, -⟩, hreads⟩ := (label_tells (k := k) (n := n) (by simp [hk]) (by simp [hn])
    (by simp [hop, RelOp.names]) (by simp [hop', RelOp.names]) hlist).1
  rw [hop, hop'] at hreads
  cases hreads with
  | filter hcondition => exact ⟨hconvention, hcondition⟩

/-- Nodes of one digest have one weight. -/
theorem Drawn.weight_eq (hstock : Unassigned stock) (hshown : Shown stock)
    (hk : k.Drawn stock inputs kind) (hn : n.Drawn stock inputs' kind') {gs : List GroupId}
    (hlength : gs.length = k.inputs.length) (hlength' : gs.length = n.inputs.length)
    (h : Memo.digestText k gs = Memo.digestText n gs) : k.weight below = n.weight below := by
  obtain ⟨hkind, -⟩ := Memo.digestText_inj hlength' hlength h
  by_cases hfilter : n.kind = .filter
  · obtain ⟨j, condition', hop'⟩ := exists_filter_of_kind hfilter
    obtain ⟨i, condition, hop⟩ := exists_filter_of_kind (hkind.trans hfilter)
    obtain ⟨-, hcondition⟩ := filter_of_digestText (hk.storeName?_eq_none hstock)
      (hn.storeName?_eq_none hstock) hop hop' h
    have hshows {c : Expr} {es : List Expr} (hes : Gathered (conditions stock) es) (hc : c ∈ es) :
        ¬c.HidesNan := by
      obtain ⟨ds, hds, hmem⟩ := hes.mem hc
      exact hshown ds hds c hmem
    have hnans := hcondition.nans_eq (fun c hc => hshows (hk.gathered hop) hc)
      (fun c hc => hshows (hn.gathered hop') hc)
    rw [weight_filter hop, weight_filter hop', hnans]
  · rw [weight_of_kind hfilter, weight_of_kind (hkind ▸ hfilter)]

end Node

theorem FilterMerge.conjuncts_mergedCondition (lower upper : Expr) :
    (mergedCondition lower upper).conjuncts = mergedConjuncts lower.conjuncts upper.conjuncts := by
  obtain ⟨new, heq, hsub, -⟩ := mergedConjuncts_eq_append lower.conjuncts upper.conjuncts
  refine Expr.conjuncts_allOf fun c hc => ?_
  rw [heq] at hc
  rcases List.mem_append.mp hc with hc | hc
  · exact Expr.conjuncts_of_mem_conjuncts hc
  · exact Expr.conjuncts_of_mem_conjuncts (hsub hc)

/-! ### Weights of groups -/

namespace Memo

variable {stock : Set Node} {m m' : Memo Float} {kind : GroupId → RelKind} {weight : GroupId → Nat}
  {n : Node} {target : Option GroupId} {gs : List GroupId}

/-- What the rules without a store offer for a group has the weight of the group. -/
theorem Offer.weight_eq (hm : m.WellFormed) (h : m.Marked Node.Weighs weight)
    (hoffer : m.Offer (fun _ => False) n target) (hgs : n.inputs.mapM m.groupOf = .ok gs) :
    ∀ g, target = some g → weight (m.find g) = n.weight (gs.map weight) := by
  have hlive {r : NodeId} {root : Node} {g : GroupId} {w : Nat} (hroot : m.Has r root g)
      (hw : weight g = w) : ∀ g', some g = some g' → weight (m.find g') = w := by
    rintro _ ⟨⟩
    rw [hm.find_of_groupOf hroot.group, hw]
  cases hoffer with
  | @locally r root g hroot hlogical hoperator => exact hlive hroot (h r root g gs hroot hgs)
  | @mergedFilter r i k j root below g g' upper lower hroot hlogical hop hinput hbelow hlogical'
      hop' =>
    refine hlive hroot ?_
    have hinputs : root.inputs = [i] := by simp [Node.inputs, hop, RelOp.inputs]
    have hinputs' : below.inputs = [j] := by simp [Node.inputs, hop', RelOp.inputs]
    have hj : j.n < m.size := hm.input_lt hbelow.node (by simp [hinputs'])
    obtain ⟨lowest, hlowest⟩ := hm.exists_groupOf hj
    obtain rfl := mapM_singleton hgs hlowest
    have hupper : weight g = nans upper.conjuncts + [weight g'].sum :=
      (h.over hroot hinputs hinput).trans (Node.weight_filter hop)
    have hlower : weight g' = nans lower.conjuncts + [weight lowest].sum :=
      (h.over hbelow hinputs' hlowest).trans (Node.weight_filter hop')
    rw [Node.weight_filter rfl, FilterMerge.conjuncts_mergedCondition,
      FilterMerge.nans_mergedConjuncts]
    simp only [List.map_singleton, List.sum_singleton] at hupper hlower ⊢
    omega
  | projection => simp
  | @trimmed r i k p root below n g g' a a' hroot hlogical hop hinput hbelow hlogical' hproject hn
      hkeeps ha =>
    refine hlive hroot ?_
    have hinputs : root.inputs = [i] := by simp [Node.inputs, hop, RelOp.inputs]
    have hweighs : weight g = 0 := (h.over hroot hinputs hinput).trans
      (Node.weight_of_kind (by simp [Node.kind, hop, RelOp.kind]))
    rw [hweighs, Node.weight_of_kind (by simp [Node.kind, RelOp.kind])]
  | scan hknown => exact hknown.elim
  | pushed hknown => exact hknown.elim
  | part hknown => exact hknown.elim
  | residual hknown => exact hknown.elim
  | convert hknown => exact hknown.elim

/-- Inserting what is drawn keeps all groups to one weight. -/
theorem Marked.weighed_inserted (hm : m.WellFormed) (hstock : Node.Unassigned stock)
    (hshown : Node.Shown stock) (hdrawn : m.Marked (Node.Drawn stock) kind)
    (h : m.Marked Node.Weighs weight) {id : NodeId} (hn : n.Drawn stock (gs.map kind) n.kind)
    (hat : ∀ g, target = some g → weight (m.find g) = n.weight (gs.map weight))
    (hgs : n.inputs.mapM m.groupOf = .ok gs)
    (htarget : ∀ g, target = some g → g.n < m.groups.size)
    (hinserted : m.Inserted n gs target id m') : ∃ weight', m'.Marked Node.Weighs weight' ∧
      ∀ g, weight' g = weight g ∨ target = none ∧ weight' g = n.weight (gs.map weight) := by
  have htold (i : NodeId) (k : Node) (w : Nat) (hk : m.node i = .ok k)
      (hd : digestText k gs = digestText n gs) (hlength : gs.length = k.inputs.length)
      (hw : k.Weighs (gs.map weight) w) : w = n.weight (gs.map weight) := by
    obtain ⟨g, hg⟩ := hm.exists_groupOf (Arena.lt_size_of_get hk)
    obtain ⟨hs, hhs⟩ := hm.exists_inputGroups hk
    exact hw.trans ((hdrawn i k g hs ⟨hk, hg⟩ hhs).weight_eq hstock hshown hn hlength
      (mapM_eq_ok.mp hgs).length_eq.symm hd)
  obtain ⟨weight', hmarked, -, hweight⟩ := h.insert hm hgs htarget rfl hat htold hinserted
  exact ⟨weight', hmarked, hweight⟩

end Memo

end Polystore
